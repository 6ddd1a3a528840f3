import FreeBSD.Lib.Ring
import FreeBSD.Lib.Splay

/-!
# Address maps

Model of the entries of a virtual memory map (`sys/vm/vm_map.c`): the list and the splay tree of the
entries, and the operations that clip, merge, insert, delete and change them.

The fields of `struct vm_map_entry` that are pointers are kept apart from the others: `next` and
`prev` of all entries, and their `links` (`left` and `right`). Addresses, sizes and the entries
themselves are natural numbers; `header` is `&map->header`, whose `start` and `end` are
`min_offset` and `max_offset`, and `dummy` is the local variable of `vm_map_entry_splay`.

Objects are numbers, the map of a submap entry is one too (a union in the source). What
`vm_object_coalesce` and `vm_object_allocate` answer is an `ObjectEnv`. The locks, the physical map,
the references of objects, `lastr` and the preloading of pages are left out, and so is what waits
for an entry that is in transition: only wiring, which is not modelled, puts one there. `none` is
the result where the code would wait or `panic`, or where the search in the tree does not end.
-/

namespace FreeBSD.Vm

/-! ## Data -/

/-- The flags of an entry (`vm_map.h`, lines 122–141), without the advice of `madvise`. -/
structure EFlags where
  nosync : Bool := false
  isSubMap : Bool := false
  cow : Bool := false
  needsCopy : Bool := false
  nofault : Bool := false
  userWired : Bool := false
  inTransition : Bool := false
  needsWakeup : Bool := false
  nocoredump : Bool := false
  growsDown : Bool := false
  growsUp : Bool := false
  deriving DecidableEq, Repr

/-- The flags `cow` of `vm_map_insert` that have an effect on the entry. -/
structure CowFlags where
  copyOnWrite : Bool := false
  nofault : Bool := false
  disableSyncer : Bool := false
  disableCoredump : Bool := false
  deriving DecidableEq, Repr

/-- A protection (`vm_prot_t`). -/
abbrev VmProt := BitVec 8

/-- An inheritance (`vm_inherit_t`). -/
abbrev VmInherit := ℕ

def vmInheritShare : VmInherit := 0
def vmInheritCopy : VmInherit := 1
def vmInheritNone : VmInherit := 2
def vmInheritDefault : VmInherit := vmInheritCopy

/-- The fields of an entry that are no pointers to entries. -/
structure Entry where
  start : ℕ := 0
  end_ : ℕ := 0
  availSsize : ℕ := 0
  object : Option ℕ := none
  offset : ℤ := 0
  eflags : EFlags := {}
  protection : VmProt := 0
  maxProtection : VmProt := 0
  inheritance : VmInherit := 0
  wiredCount : ℤ := 0
  deriving DecidableEq, Repr

/-- The answers of the functions of objects: whether an object, from an offset on, can be extended
    behind a range of one size by another size, and the object that is allocated for an entry. -/
structure ObjectEnv where
  coalesce : ℕ → ℤ → ℕ → ℕ → Bool
  allocate : ℕ → ℕ

/-- The results of the operations. -/
inductive KernReturn where
  | success | invalidAddress | noSpace | invalidArgument | protectionFailure
  deriving DecidableEq, Repr

/-- `&map->header`. -/
def header : ℕ := 0

/-- The dummy node of a splay. -/
def dummy : ℕ := 1

/-- A map. The entries from `fresh` on are not in use. -/
structure VmMap where
  entry : ℕ → Entry
  next : ℕ → ℕ
  prev : ℕ → ℕ
  links : Lib.Links ℕ
  nentries : ℤ
  size : ℕ
  root : Option ℕ
  firstFree : ℕ
  systemMap : Bool
  fresh : ℕ

namespace VmMap

def minOffset (m : VmMap) : ℕ := (m.entry header).start

def maxOffset (m : VmMap) : ℕ := (m.entry header).end_

/-- An assignment to fields of an entry. -/
def setEntry (m : VmMap) (e : ℕ) (f : Entry → Entry) : VmMap :=
  { m with entry := Function.update m.entry e (f (m.entry e)) }

/-- `vm_map_init` of a map from its zone, lines 206–217 and 510–530. -/
def init (systemMap : Bool) (min max : ℕ) : VmMap where
  entry := fun _ => { start := min, end_ := max }
  next := fun _ => header
  prev := fun _ => header
  links := ⟨fun _ => none, fun _ => none⟩
  nentries := 0
  size := 0
  root := none
  firstFree := header
  systemMap := systemMap
  fresh := 2

/-! ## The list and the tree -/

/-- On which side of an entry the search for an address goes on. -/
def compare (m : VmMap) (address : ℕ) (e : ℕ) : Ordering :=
  if address < (m.entry e).start then .lt
  else if (m.entry e).end_ ≤ address then .gt
  else .eq

/-- `vm_map_entry_splay`, lines 584–631. -/
def entrySplay (m : VmMap) (address : ℕ) : Option ℕ → Option (VmMap × Option ℕ)
  | none => some (m, none)
  | some root =>
    (Lib.splay (m.compare address) dummy m.fresh m.links root).map fun (k, root) =>
      ({ m with links := k }, some root)

/-- `if (entry != map->root) vm_map_entry_splay(entry->start, map->root)` (lines 654 and 672): the
    result of the splay is not looked at. -/
def splayToRoot (m : VmMap) (entry : ℕ) : Option VmMap :=
  if some entry ≠ m.root then (m.entrySplay (m.entry entry).start m.root).map Prod.fst else some m

/-- `vm_map_entry_link`, lines 638–664. -/
def entryLink (m : VmMap) (afterWhere entry : ℕ) : Option VmMap := do
  let m := { m with
    nentries := m.nentries + 1
    prev := Function.update (Function.update m.prev entry afterWhere) (m.next afterWhere) entry
    next := Function.update (Function.update m.next entry (m.next afterWhere)) afterWhere entry }
  if afterWhere ≠ header then
    let m ← m.splayToRoot afterWhere
    let k := m.links.setRight entry (m.links.right afterWhere)
    let k := k.setLeft entry (some afterWhere)
    let k := k.setRight afterWhere none
    some { m with links := k, root := some entry }
  else
    let k := m.links.setRight entry m.root
    let k := k.setLeft entry none
    some { m with links := k, root := some entry }

/-- `vm_map_entry_unlink`, lines 674–680: the root of the tree is replaced. -/
def unlinkRoot (m : VmMap) (entry : ℕ) : Option VmMap :=
  match m.links.left entry with
  | none => some { m with root := m.links.right entry }
  | some l =>
    match m.entrySplay (m.entry entry).start (some l) with
    | some (m, some root) =>
      some { m with links := m.links.setRight root (m.links.right entry), root := some root }
    | _ => none

/-- `vm_map_entry_unlink`, lines 666–689. -/
def entryUnlink (m : VmMap) (entry : ℕ) : Option VmMap := do
  let m ← m.splayToRoot entry
  let m ← m.unlinkRoot entry
  let prev := m.prev entry
  let next := m.next entry
  some { m with
    prev := Function.update m.prev next prev
    next := Function.update m.next prev next
    nentries := m.nentries - 1 }

/-- `vm_map_lookup_entry`, lines 701–723: whether the entry contains the address, and the entry. -/
def lookupEntry (m : VmMap) (address : ℕ) : Option (VmMap × Bool × ℕ) := do
  let (m, cur) ← m.entrySplay address m.root
  match cur with
  | none => some (m, false, header)
  | some cur =>
    let m := { m with root := some cur }
    if (m.entry cur).start ≤ address then
      if address < (m.entry cur).end_ then some (m, true, cur) else some (m, false, cur)
    else some (m, false, m.prev cur)

/-! ## Merging and clipping -/

/-- `if (map->first_free == old) map->first_free = new`. -/
def moveFirstFree (m : VmMap) (old new : ℕ) : VmMap :=
  if m.firstFree = old then { m with firstFree := new } else m

/-- `vm_map_simplify_entry`, lines 1019–1040: the entry in front. -/
def simplifyPrev (m : VmMap) (entry : ℕ) : Option VmMap := do
  let e := m.entry entry
  let prev := m.prev entry
  let p := m.entry prev
  let prevsize := p.end_ - p.start
  if prev ≠ header ∧ p.end_ = e.start ∧ p.object = e.object ∧
      (p.object = none ∨ p.offset + prevsize = e.offset) ∧ p.eflags = e.eflags ∧
      p.protection = e.protection ∧ p.maxProtection = e.maxProtection ∧
      p.inheritance = e.inheritance ∧ p.wiredCount = e.wiredCount then
    let m ← (m.moveFirstFree prev entry).entryUnlink prev
    some (m.setEntry entry fun e =>
      { e with start := (m.entry prev).start, offset := (m.entry prev).offset })
  else some m

/-- `vm_map_simplify_entry`, lines 1042–1062: the entry behind. -/
def simplifyNext (m : VmMap) (entry : ℕ) : Option VmMap := do
  let e := m.entry entry
  let next := m.next entry
  let n := m.entry next
  let esize := e.end_ - e.start
  if next ≠ header ∧ e.end_ = n.start ∧ n.object = e.object ∧
      (e.object = none ∨ e.offset + esize = n.offset) ∧ n.eflags = e.eflags ∧
      n.protection = e.protection ∧ n.maxProtection = e.maxProtection ∧
      n.inheritance = e.inheritance ∧ n.wiredCount = e.wiredCount then
    let m ← (m.moveFirstFree next entry).entryUnlink next
    some (m.setEntry entry fun e => { e with end_ := (m.entry next).end_ })
  else some m

/-- `vm_map_simplify_entry`, lines 1010–1063. -/
def simplifyEntry (m : VmMap) (entry : ℕ) : Option VmMap := do
  if (m.entry entry).eflags.inTransition ∨ (m.entry entry).eflags.isSubMap then some m
  else
    let m ← m.simplifyPrev entry
    m.simplifyNext entry

/-- An entry without object that is to be split gets one, unless the map is a system map
    (lines 1100–1106 and 1151–1157). -/
def createObject (env : ObjectEnv) (m : VmMap) (entry : ℕ) : VmMap :=
  if (m.entry entry).object = none ∧ ¬ m.systemMap then
    m.setEntry entry fun e => { e with object := some (env.allocate entry), offset := 0 }
  else m

/-- `vm_map_entry_create` and the assignment to the new entry, which is `m.fresh`. -/
def entryCreate (m : VmMap) (e : Entry) : VmMap :=
  { m with entry := Function.update m.entry m.fresh e, fresh := m.fresh + 1 }

/-- `_vm_map_clip_start`, lines 1081–1120. -/
def clipStartSplit (env : ObjectEnv) (m : VmMap) (entry start : ℕ) : Option VmMap := do
  let m ← m.simplifyEntry entry
  let m := m.createObject env entry
  let newEntry := m.fresh
  let m := m.entryCreate { m.entry entry with end_ := start }
  let m := m.setEntry entry fun e =>
    { e with offset := e.offset + (start - e.start : ℤ), start := start }
  m.entryLink (m.prev entry) newEntry

/-- `vm_map_clip_start`, lines 1071–1075. -/
def clipStart (env : ObjectEnv) (m : VmMap) (entry startaddr : ℕ) : Option VmMap :=
  if (m.entry entry).start < startaddr then m.clipStartSplit env entry startaddr else some m

/-- `_vm_map_clip_end`, lines 1139–1173. -/
def clipEndSplit (env : ObjectEnv) (m : VmMap) (entry end_ : ℕ) : Option VmMap := do
  let m := m.createObject env entry
  let newEntry := m.fresh
  let e := m.entry entry
  let m := m.entryCreate { e with start := end_, offset := e.offset + (end_ - e.start : ℤ) }
  let m := m.setEntry entry fun e => { e with end_ := end_ }
  m.entryLink entry newEntry

/-- `vm_map_clip_end`, lines 1129–1133. -/
def clipEnd (env : ObjectEnv) (m : VmMap) (entry endaddr : ℕ) : Option VmMap :=
  if endaddr < (m.entry entry).end_ then m.clipEndSplit env entry endaddr else some m

/-! ## Insertion -/

/-- The flags of an entry that is inserted, lines 770–784. -/
def protoeflags (cow : CowFlags) : EFlags where
  cow := cow.copyOnWrite
  needsCopy := cow.copyOnWrite
  nofault := cow.nofault
  nosync := cow.disableSyncer
  nocoredump := cow.disableCoredump

/-- `vm_map_insert`, lines 840–869: a new entry. -/
def insertNew (m : VmMap) (prevEntry : ℕ) (e : Entry) : Option VmMap := do
  let newEntry := m.fresh
  let m := m.entryCreate e
  let m ← m.entryLink prevEntry newEntry
  let m := { m with size := m.size + (e.end_ - e.start) }
  if m.firstFree = prevEntry ∧ (m.entry newEntry).start ≤ (m.entry prevEntry).end_ then
    some { m with firstFree := newEntry }
  else some m

/-- `vm_map_insert`, lines 737–890. -/
def insert (env : ObjectEnv) (m : VmMap) (object : Option ℕ) (offset : ℤ) (start end_ : ℕ)
    (prot max : VmProt) (cow : CowFlags) : Option (VmMap × KernReturn) := do
  if start < m.minOffset ∨ m.maxOffset < end_ ∨ end_ ≤ start then some (m, .invalidAddress)
  else
    let (m, found, prevEntry) ← m.lookupEntry start
    if found then some (m, .noSpace)
    else if m.next prevEntry ≠ header ∧ (m.entry (m.next prevEntry)).start < end_ then
      some (m, .noSpace)
    else
      let e : Entry := { start, end_, object, offset, eflags := protoeflags cow, availSsize := 0,
                         inheritance := vmInheritDefault, protection := prot,
                         maxProtection := max, wiredCount := 0 }
      let p := m.entry prevEntry
      if object = none ∧ prevEntry ≠ header ∧ p.eflags = protoeflags cow ∧ p.end_ = start ∧
          p.wiredCount = 0 ∧
          p.object.all fun o => env.coalesce o p.offset (p.end_ - p.start) (end_ - p.end_) then
        -- The object was extended, and so may be the entry in front.
        if p.inheritance = vmInheritDefault ∧ p.protection = prot ∧ p.maxProtection = max then
          let m := { m with size := m.size + (end_ - p.end_) }
          let m := m.setEntry prevEntry fun p => { p with end_ := end_ }
          let m ← m.simplifyEntry prevEntry
          some (m, .success)
        else
          let m ← m.insertNew prevEntry
            { e with object := p.object, offset := p.offset + (p.end_ - p.start : ℕ) }
          some (m, .success)
      else
        let m ← m.insertNew prevEntry e
        some (m, .success)

/-! ## Ranges of entries -/

/-- `VM_MAP_RANGE_CHECK`, lines 1181–1189. -/
def rangeCheck (m : VmMap) (start end_ : ℕ) : ℕ × ℕ :=
  let start := if start < m.minOffset then m.minOffset else start
  let end_ := if m.maxOffset < end_ then m.maxOffset else end_
  (if end_ < start then end_ else start, end_)

/-- How every operation on a range begins: the entry that contains the start, clipped there, or the
    entry behind (for example lines 1351–1355). -/
def firstEntry (env : ObjectEnv) (m : VmMap) (start : ℕ) : Option (VmMap × ℕ) := do
  let (m, found, entry) ← m.lookupEntry start
  if found then
    let m ← m.clipStart env entry start
    some (m, entry)
  else some (m, m.next entry)

/-- `while ((entry != &map->header) && (entry->start < end))`: the body gives the entry to go on
    with. `fuel` bounds the number of rounds. -/
def whileBelow (end_ : ℕ) (body : VmMap → ℕ → Option (VmMap × ℕ)) :
    ℕ → VmMap → ℕ → Option VmMap
  | 0, _, _ => none
  | fuel + 1, m, entry =>
    if entry ≠ header ∧ (m.entry entry).start < end_ then do
      let (m, entry) ← body m entry
      whileBelow end_ body fuel m entry
    else some m

/-- `vm_map_submap`, lines 1209–1240. -/
def submap (env : ObjectEnv) (m : VmMap) (start end_ : ℕ) (submap : ℕ) :
    Option (VmMap × KernReturn) := do
  let (start, end_) := m.rangeCheck start end_
  let (m, entry) ← m.firstEntry env start
  let m ← m.clipEnd env entry end_
  let e := m.entry entry
  if e.start = start ∧ e.end_ = end_ ∧ e.eflags.cow = false ∧ e.object = none then
    let m := m.setEntry entry fun e =>
      { e with object := some submap, eflags := { e.eflags with isSubMap := true } }
    some (m, .success)
  else some (m, .invalidArgument)

/-- The first pass of `vm_map_protect`, lines 1357–1371: the error, if there is one. -/
def protectCheck (m : VmMap) (end_ : ℕ) (newProt : VmProt) : ℕ → ℕ → Option (Option KernReturn)
  | 0, _ => none
  | fuel + 1, current =>
    if current ≠ header ∧ (m.entry current).start < end_ then
      if (m.entry current).eflags.isSubMap then some (some .invalidArgument)
      else if newProt &&& (m.entry current).maxProtection ≠ newProt then
        some (some .protectionFailure)
      else protectCheck m end_ newProt fuel (m.next current)
    else some none

/-- The change of `vm_map_protect` to an entry, lines 1383–1389. -/
def protectEntry (newProt : VmProt) (setMax : Bool) (e : Entry) : Entry :=
  if setMax then { e with maxProtection := newProt, protection := newProt &&& e.protection }
  else { e with protection := newProt }

/-- The body of the second pass of `vm_map_protect`, and of the loop of `vm_map_inherit`: the entry
    is clipped, changed by `f` and merged with its neighbours. -/
def changeBody (env : ObjectEnv) (end_ : ℕ) (f : Entry → Entry) (m : VmMap) (entry : ℕ) :
    Option (VmMap × ℕ) := do
  let m ← m.clipEnd env entry end_
  let m := m.setEntry entry f
  let m ← m.simplifyEntry entry
  some (m, m.next entry)

/-- `vm_map_protect`, lines 1340–1412. -/
def protect (env : ObjectEnv) (m : VmMap) (start end_ : ℕ) (newProt : VmProt) (setMax : Bool) :
    Option (VmMap × KernReturn) := do
  let (start, end_) := m.rangeCheck start end_
  let (m, entry) ← m.firstEntry env start
  match ← m.protectCheck end_ newProt m.fresh entry with
  | some e => some (m, e)
  | none =>
    let m ← whileBelow end_ (changeBody env end_ (protectEntry newProt setMax)) m.fresh m entry
    some (m, .success)

/-- `vm_map_inherit`, lines 1575–1605. -/
def inherit (env : ObjectEnv) (m : VmMap) (start end_ : ℕ) (newInheritance : VmInherit) :
    Option (VmMap × KernReturn) := do
  if newInheritance ∈ [vmInheritNone, vmInheritCopy, vmInheritShare] then
    let (start, end_) := m.rangeCheck start end_
    let (m, entry) ← m.firstEntry env start
    let m ← whileBelow end_
      (changeBody env end_ fun e => { e with inheritance := newInheritance }) m.fresh m entry
    some (m, .success)
  else some (m, .invalidArgument)

/-! ## Deletion -/

/-- `vm_map_entry_delete`, lines 2062–2094. -/
def entryDelete (m : VmMap) (entry : ℕ) : Option VmMap := do
  let m ← m.entryUnlink entry
  some { m with size := m.size - ((m.entry entry).end_ - (m.entry entry).start) }

/-- The body of the loop of `vm_map_delete`, lines 2126–2192. -/
def deleteBody (env : ObjectEnv) (end_ : ℕ) (m : VmMap) (entry : ℕ) : Option (VmMap × ℕ) := do
  if (m.entry entry).eflags.inTransition then none
  else
    let m ← m.clipEnd env entry end_
    let next := m.next entry
    let m := if (m.entry entry).wiredCount ≠ 0 then
      m.setEntry entry fun e => { e with wiredCount := 0 } else m
    let m ← m.entryDelete entry
    some (m, next)

/-- `vm_map_delete`, lines 2102–2194. -/
def delete (env : ObjectEnv) (m : VmMap) (start end_ : ℕ) : Option (VmMap × KernReturn) := do
  let (m, entry) ← m.firstEntry env start
  let m :=
    if entry = header then { m with firstFree := header }
    else if start ≤ (m.entry m.firstFree).start then { m with firstFree := m.prev entry }
    else m
  let m ← whileBelow end_ (deleteBody env end_) m.fresh m entry
  some (m, .success)

end VmMap

end FreeBSD.Vm
