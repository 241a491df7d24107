import Nanolibc.VectorModel

set_option autoImplicit false

/-!
# `std::unordered_map`

The entries stand in a dense vector; each location of a second vector, the hash table, heads a
linked list of their indexes. The methods run on the vectors' own methods, so that a walk along a
list that leads outside the entries, or never ends, is a fault. An iterator is the distance from
`begin()`.
-/
namespace Nanolibc.UnorderedMapModel
open Lib.Program Lib.ArrayHeap VectorModel

/-- An index into the entries; `none` is `SIZE_MAX`. -/
abbrev Index := Option ℕ

structure Entry (K V : Type) where
  first : K
  second : V
  next : Index
  hash : ℕ

/-- `Key`, `T` and `Hash`, `sizeof(Entry)`, and what a new array of indexes happens to hold. -/
structure Traits (K V : Type) [BEq K] where
  hasher : K → ℕ
  hasher_eq : ∀ a b, a == b → hasher a = hasher b
  key : Element K
  value : Element V
  entrySize : ℕ
  entrySize_pos : 0 < entrySize
  stale : ℕ → Index

structure Store (K V : Type) where
  entries : Heap (Entry K V)
  tables : Heap Index

structure UnorderedMap where
  entries : Vec
  hashTable : Vec

/-- A `const Key&` argument: a key outside the maps, or one inside an entry, which `field` finds
there. -/
inductive KeyRef (K V : Type) where
  | temp (k : K)
  | stored (array index : ℕ) (field : Entry K V → K)

variable {K V : Type} [BEq K] (T : Traits K V)

abbrev MapProg (K V β : Type) := Prog (Store K V) Fault β

def onEntries {β : Type} (m : Method (Entry K V) β) : MapProg K V β :=
  zoom Store.entries (fun s h => { s with entries := h }) m

def onTables {β : Type} (m : Method Index β) : MapProg K V β :=
  zoom Store.tables (fun s h => { s with tables := h }) m

def entryOf (f : K) (s : V) : Entry K V := ⟨f, s, none, T.hasher f⟩

def entryDefault : Entry K V := entryOf T T.key.dflt T.value.dflt

def entryElement : Element (Entry K V) where
  dflt := entryDefault T
  husk := fun e => { e with first := T.key.husk e.first, second := T.value.husk e.second }
  fresh := fun _ => entryDefault T
  size := T.entrySize
  size_pos := T.entrySize_pos

def indexElement : Element Index := ⟨some 0, id, T.stale, 8, by decide⟩

def loadKey : KeyRef K V → MapProg K V K
  | .temp k => pure k
  | .stored a i field => do
    let e ← onEntries (read (some a) i)
    return field e

namespace UnorderedMap

variable (this : UnorderedMap)

def endIt : ℕ := this.entries.nitems

def hashTableIndex (hash : ℕ) : ℕ :=
  hash &&& (if this.hashTable.nitems = 0 then 2 ^ 64 - 1 else this.hashTable.nitems - 1)

def entryFromIndex : Index → ℕ
  | none => this.endIt
  | some index => index

def entryAt (entry : ℕ) : MapProg K V (Entry K V) := onEntries (read this.entries.data entry)

def updateEntry (entry : ℕ) (f : Entry K V → Entry K V) : MapProg K V Unit := do
  let e ← entryAt this entry
  onEntries (write this.entries.data entry (f e))

def setNext (entry : ℕ) (next : Index) : MapProg K V Unit :=
  updateEntry this entry fun e => { e with next := next }

def insertIntoHashTable (entry : ℕ) : MapProg K V Unit := do
  let e ← entryAt this entry
  let nextEntryIndex ← onTables (Vec.at_ this.hashTable (hashTableIndex this e.hash))
  setNext this entry nextEntryIndex
  onTables (Vec.setAt this.hashTable (hashTableIndex this e.hash) (some entry))

/-- The rounds after which a walk has met some slot twice. -/
def rounds : ℕ := this.entries.maxNitems + 1

def removeLoop (entry index : ℕ) : ℕ → ℕ → ℕ → MapProg K V Unit
  | 0, _, _ => throw .diverged
  | rounds + 1, prevEntry, it =>
    if it = this.endIt then pure ()
    else if it = entry then do
      let e ← entryAt this entry
      if prevEntry = this.endIt then onTables (Vec.setAt this.hashTable index e.next)
      else setNext this prevEntry e.next
      setNext this entry none
    else do
      let e ← entryAt this it
      removeLoop entry index rounds it (entryFromIndex this e.next)

def removeFromHashTable (entry : ℕ) : MapProg K V Unit := do
  let e ← entryAt this entry
  let first ← onTables (Vec.at_ this.hashTable (hashTableIndex this e.hash))
  removeLoop this entry (hashTableIndex this e.hash) this.rounds this.endIt
    (entryFromIndex this first)

def findLoop (key : KeyRef K V) : ℕ → ℕ → MapProg K V ℕ
  | 0, _ => throw .diverged
  | rounds + 1, entry =>
    if entry = this.endIt then pure this.endIt
    else do
      let e ← entryAt this entry
      let k ← loadKey key
      if e.first == k then pure entry
      else findLoop key rounds (entryFromIndex this e.next)

def find (key : KeyRef K V) : MapProg K V ℕ := do
  let k ← loadKey key
  let first ← onTables (Vec.at_ this.hashTable (hashTableIndex this (T.hasher k)))
  findLoop this key this.rounds (entryFromIndex this first)

def clearTable : MapProg K V Unit :=
  loop this.hashTable.nitems 0 fun i => onTables (Vec.setAt this.hashTable i none)

def construct : MapProg K V UnorderedMap := do
  let table ← onTables (Vec.resize (indexElement T) Vec.null 32)
  let this : UnorderedMap := ⟨Vec.null, table⟩
  clearTable this
  return this

def expandHashTable : MapProg K V UnorderedMap := do
  let table ← onTables
    (Vec.resize (indexElement T) this.hashTable (this.hashTable.nitems * 2 % 2 ^ 64))
  let this := { this with hashTable := table }
  clearTable this
  loop this.entries.nitems 0 fun i => insertIntoHashTable this i
  return this

def append (key : KeyRef K V) : MapProg K V (UnorderedMap × ℕ) := do
  let k ← loadKey key
  let entries ← onEntries
    (Vec.pushBackMove (entryElement T) this.entries (.temp (entryOf T k T.value.dflt)))
  let this := { this with entries := entries }
  let entry := this.endIt - 1
  let k ← loadKey key
  updateEntry this entry fun e => { e with hash := T.hasher k }
  insertIntoHashTable this entry
  return (this, entry)

def index (key : KeyRef K V) : MapProg K V (UnorderedMap × ℕ) := do
  let entry ← find T this key
  if entry ≠ this.endIt then pure (this, entry)
  else if this.hashTable.nitems ≤ this.entries.nitems * 2 % 2 ^ 64 then do
    let this ← expandHashTable T this
    append T this key
  else append T this key

/-- `*entry = move(*last_entry)` between two changes of the hash table. -/
def relocate (lastEntry entry : ℕ) : MapProg K V Unit := do
  removeFromHashTable this lastEntry
  let e ← onEntries (moveOut (entryElement T) this.entries.data lastEntry)
  onEntries (write this.entries.data entry e)
  insertIntoHashTable this entry

/-- What `erase` does with the hole it has taken off the lists. -/
def fillHole (entry : ℕ) : MapProg K V Unit :=
  if entry ≠ this.endIt - 1 then relocate T this (this.endIt - 1) entry else pure ()

def erase (key : KeyRef K V) : MapProg K V UnorderedMap :=
  if this.entries.nitems = 0 then pure this
  else do
    let entry ← find T this key
    if entry = this.endIt then pure this
    else do
      removeFromHashTable this entry
      fillHole T this entry
      let entries ← onEntries (Vec.popBack (entryElement T) this.entries)
      return { this with entries := entries }

end UnorderedMap

end Nanolibc.UnorderedMapModel
