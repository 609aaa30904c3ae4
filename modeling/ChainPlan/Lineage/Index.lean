import ChainPlan.Lineage
import ChainPlan.Repeats
import Std.Data.HashMap

/-! # Indexed lineages

The tables of a lineage as hash maps, which are read and written in constant time and forget the
order of their rows. The main statement is `LineageIndex.trace_indexes`: they find what the tables
find.
-/

namespace ChainPlan

/-- The first duplicate field of the effects of an element on one kind of traffic, as an error. -/
def Element.firstDuplicate? (e : Element) (t : Traffic) : Option PlanError :=
  [Access.read, .write, .record].findSome? fun a ↦
    (firstRepeatOf? ((e.on t).fieldsOf a).fields).map fun f ↦ .duplicateField e.identity t a f

/-- An index of the values of a map: it finds the same values, and as many. -/
def Indexes {κ ν : Type} [DecidableEq κ] [BEq κ] [Hashable κ] (index : Std.HashMap κ ν)
    (m : OrderedMap κ ν) : Prop :=
  (∀ k, index[k]? = m.find? k) ∧ index.size = m.entries.length ∧ m.keys.Nodup

/-- The writers that each reader observes on each field. -/
abbrev TableIndex := Std.HashMap (Reader × Field) (List Writer)

/-- The lineage tables of a chain, without the order of their rows. -/
structure LineageIndex where
  read : TableIndex
  record : TableIndex

namespace LineageIndex

/-- The current writers of each field. -/
abbrev Writers := Std.HashMap Field (List Writer)

/-- The table with what a reader now observes on each of the fields. -/
def note (writers : Writers) (reader : Reader) (fields : List Field) (table : TableIndex) :
    TableIndex :=
  fields.foldl (fun t f ↦ t.insert (reader, f) (writers.getD f [])) table

/-- The walk along a chain, from its current writers and tables on, to the end, where the output
reads every known field. -/
def walk (known : List Field) (t : Traffic) (writers : Writers) (read record : TableIndex) :
    Chain → LineageIndex
  | [] => ⟨note writers .output known read, record⟩
  | e :: rest =>
    let read := note writers (.element e.identity) ((e.on t).read.expand known) read
    let record := note writers (.element e.identity) ((e.on t).record.expand known) record
    let writers := ((e.on t).write.expand known).foldl (fun m f ↦ m.modify f e.credit) writers
    walk known t writers read record rest

/-- The indexed lineage of a chain whose sets list no field twice. -/
def trace (chain : Chain) (t : Traffic) : LineageIndex :=
  let known := distinctFrom ∅ (Field.traces ++ chain.flatMap fun e ↦ (e.on t).listedFields)
  let writers := known.foldl (fun m f ↦ m.insert f [.input]) ∅
  walk known t writers ∅ ∅ chain

/-- The indexed lineage of a chain, or the first duplicate field. -/
def ofChain (chain : Chain) (t : Traffic) : Except PlanError LineageIndex :=
  match chain.findSome? fun e ↦ e.firstDuplicate? t with
  | some error => .error error
  | none => .ok (trace chain t)

end LineageIndex

namespace TableIndex

/-- Whether two tables have the same entries. -/
def sameEntries (a b : TableIndex) : Bool :=
  a.size == b.size && a.all fun k v ↦ b[k]? = some v

end TableIndex

/-! ## Agreement with the tables -/

namespace Indexes

variable {κ ν : Type} [DecidableEq κ] [BEq κ] [LawfulBEq κ] [Hashable κ]

omit [LawfulBEq κ] in
/-- The empty index is one of the empty map. -/
theorem empty : Indexes (∅ : Std.HashMap κ ν) .empty := by
  refine ⟨fun k ↦ ?_, ?_, ?_⟩
  · rw [Std.HashMap.getElem?_empty, OrderedMap.find?_empty]
  · simp [OrderedMap.empty]
  · simp [OrderedMap.empty, OrderedMap.keys]

/-- An index is kept up by writing into it too. -/
theorem insert {index : Std.HashMap κ ν} {m : OrderedMap κ ν} (h : Indexes index m) (k : κ)
    (v : ν) : Indexes (index.insert k v) (m.insert k v) := by
  refine ⟨fun a ↦ ?_, ?_, OrderedMap.nodup_keys_insert k v h.2.2⟩
  · rw [Std.HashMap.getElem?_insert, OrderedMap.find?_insert, h.1]
    by_cases ha : a = k
    · simp [ha]
    · simp [ha, Ne.symm ha]
  · rw [Std.HashMap.size_insert, OrderedMap.length_insert, ← h.1 k, h.2.1]
    simp only [Std.HashMap.mem_iff_isSome_getElem?]

/-- Maps are compared by their indexes. -/
theorem sameEntries_eq [DecidableEq ν] {a b : Std.HashMap κ ν} {m n : OrderedMap κ ν}
    (h : Indexes a m) (h' : Indexes b n) :
    (a.size == b.size && a.all fun k v ↦ b[k]? = some v) = m.sameEntries n := by
  rw [OrderedMap.sameEntries, h.2.1, h'.2.1]
  congr 1
  rw [Bool.eq_iff_iff, ← Std.HashMap.all_toList, List.all_eq_true, List.all_eq_true]
  refine ⟨fun hs ↦ ?_, fun hs ↦ ?_⟩
  · rintro ⟨k, v⟩ hm
    have := hs (k, v) (Std.HashMap.mem_toList_iff_getElem?_eq_some.2
      ((h.1 k).trans ((OrderedMap.mem_entries_iff h.2.2 k v).1 hm)))
    simpa [h'.1] using this
  · rintro ⟨k, v⟩ hm
    have := hs (k, v) ((OrderedMap.mem_entries_iff h.2.2 k v).2
      ((h.1 k).symm.trans (Std.HashMap.mem_toList_iff_getElem?_eq_some.1 hm)))
    simpa [h'.1] using this

end Indexes

namespace LineageIndex

/-- What a reader observes is the same in the index. -/
theorem note_indexes {writers : Writers} {w : LineageWalk}
    (hw : ∀ f, writers[f]? = w.writers.find? f) (reader : Reader) (fields : List Field)
    {table : TableIndex} {m : LineageTable} (h : Indexes table m) :
    Indexes (note writers reader fields table) (w.note reader fields m) := by
  induction fields generalizing table m with
  | nil => exact h
  | cons f rest ih =>
    have step : Indexes (table.insert (reader, f) (writers.getD f []))
        (m.insert (reader, f) (w.writersOf f)) := by
      rw [Std.HashMap.getD_eq_getD_getElem?, hw]
      exact h.insert (reader, f) (w.writersOf f)
    exact ih step

private theorem getElem?_foldl_modify {writers : Writers} {m : OrderedMap Field (List Writer)}
    (h : ∀ f, writers[f]? = m.find? f) (fields : List Field) (change : List Writer → List Writer)
    (f : Field) :
    (fields.foldl (fun w f ↦ w.modify f change) writers)[f]? =
      (fields.foldl (fun m f ↦ m.modify f change) m).find? f := by
  induction fields generalizing writers m with
  | nil => exact h f
  | cons g rest ih =>
    refine ih fun a ↦ ?_
    rw [Std.HashMap.getElem?_modify, OrderedMap.find?_modify, h, h]
    by_cases ha : a = g
    · simp [ha]
    · simp [ha, Ne.symm ha]

private theorem getElem?_foldl_insert (writers : Writers) (known : List Field) (v : List Writer)
    (f : Field) :
    (known.foldl (fun m f ↦ m.insert f v) writers)[f]? =
      if f ∈ known then some v else writers[f]? := by
  induction known generalizing writers with
  | nil => simp
  | cons g rest ih =>
    rw [List.foldl_cons, ih, Std.HashMap.getElem?_insert]
    by_cases hr : f ∈ rest
    · simp [hr]
    · by_cases hg : f = g
      · simp [hg]
      · simp [hr, hg, Ne.symm hg]

/-- The walk keeps up the indexes of the tables. -/
theorem walk_indexes (known : List Field) (t : Traffic) (chain : Chain) {writers : Writers}
    {read record : TableIndex} {w : LineageWalk} (hw : ∀ f, writers[f]? = w.writers.find? f)
    (hr : Indexes read w.tables.read) (hc : Indexes record w.tables.record) :
    let index := walk known t writers read record chain
    let lineage := (chain.foldl (LineageWalk.visit known t) w).finish known
    Indexes index.read lineage.read ∧ Indexes index.record lineage.record := by
  induction chain generalizing writers read record w with
  | nil => exact ⟨note_indexes hw .output known hr, hc⟩
  | cons e rest ih =>
    exact ih (w := w.visit known t e) (getElem?_foldl_modify hw _ _)
      (note_indexes hw _ _ hr) (note_indexes hw _ _ hc)

/-- The indexed lineage holds the tables of the lineage. -/
theorem trace_indexes (chain : Chain) (t : Traffic) :
    Indexes (trace chain t).read (Lineage.trace chain t).read ∧
      Indexes (trace chain t).record (Lineage.trace chain t).record := by
  have hk := append_distinctFrom ∅ [] (Field.traces ++ chain.flatMap fun e ↦ (e.on t).listedFields)
    (by simp)
  rw [List.nil_append, ← Chain.knownFields] at hk
  simp only [trace, hk]
  refine walk_indexes (chain.knownFields t) t chain (w := .start (chain.knownFields t))
    (fun f ↦ ?_) Indexes.empty Indexes.empty
  rw [getElem?_foldl_insert]
  simp [LineageWalk.start, OrderedMap.find?_ofKeys]

/-- Hashing makes no difference to the first duplicate field. -/
theorem firstDuplicate?_eq (chain : Chain) (t : Traffic) :
    (chain.findSome? fun e ↦ e.firstDuplicate? t) = chain.firstDuplicate? t := by
  unfold Chain.firstDuplicate? Element.firstDuplicate?
  congr 1
  funext e
  simp only [PathEffects.firstDuplicate?, FieldSet.firstRepeated?, List.map_findSome?,
    firstRepeatOf?_eq, Option.map_map, Function.comp_def]

/-- The indexed lineage exists when the lineage does. -/
theorem ofChain_eq (chain : Chain) (t : Traffic) :
    ofChain chain t = (Lineage.ofChain chain t).map fun _ ↦ trace chain t := by
  rw [ofChain, firstDuplicate?_eq, Lineage.ofChain]
  cases chain.firstDuplicate? t <;> rfl

end LineageIndex

end ChainPlan
