import ChainPlan.Lineage.Index
import ChainPlan.Proofs.Fields
import Mathlib.Data.List.Induction

/-! # What readers observe

The tables of a lineage are specified by look-up, `Chain.observes`. An element observes on a field
that it reads or records the writers of the field in front of it, and the output those behind the
whole chain. The writers of a field are found without any table, by `Chain.writersOf`. Where
elements share an identity, the last one that accesses the field decides.
-/

namespace ChainPlan

namespace OrderedMap

variable {κ ν : Type} [DecidableEq κ]

/-- A map has a key exactly if it has a value for it. -/
theorem mem_keys_iff {m : OrderedMap κ ν} (h : m.keys.Nodup) (k : κ) :
    k ∈ m.keys ↔ ∃ v, m.find? k = some v := by
  simp [keys, ← mem_entries_iff h]

/-- Maps of the same size with the values of one in the other have the same values. -/
theorem sameEntries_iff [DecidableEq ν] {m n : OrderedMap κ ν} (hm : m.keys.Nodup)
    (hn : n.keys.Nodup) : m.sameEntries n = true ↔ ∀ k, m.find? k = n.find? k := by
  have length_keys (m : OrderedMap κ ν) : m.keys.length = m.entries.length := by simp [keys]
  have all_iff : (m.entries.all fun e ↦ n.find? e.1 = some e.2) = true ↔
      ∀ k v, m.find? k = some v → n.find? k = some v := by
    simp [List.all_eq_true, mem_entries_iff hm]
  rw [sameEntries, Bool.and_eq_true, all_iff, beq_iff_eq, ← length_keys m, ← length_keys n]
  constructor
  · rintro ⟨hl, ha⟩ k
    have hs : m.keys ⊆ n.keys := by
      intro k hk
      obtain ⟨v, hv⟩ := (mem_keys_iff hm k).mp hk
      exact (mem_keys_iff hn k).mpr ⟨v, ha k v hv⟩
    have hp : m.keys.Perm n.keys := (hm.subperm hs).perm_of_length_le (Nat.le_of_eq hl.symm)
    cases hk : m.find? k with
    | some v => exact (ha k v hk).symm
    | none =>
      cases hv : n.find? k with
      | none => rfl
      | some v =>
        have : k ∈ m.keys := hp.mem_iff.mpr ((mem_keys_iff hn k).mpr ⟨v, hv⟩)
        obtain ⟨w, hw⟩ := (mem_keys_iff hm k).mp this
        rw [hk] at hw
        cases hw
  · intro h
    refine ⟨List.Perm.length_eq ((List.perm_ext_iff_of_nodup hm hn).mpr fun k ↦ ?_), ?_⟩
    · rw [mem_keys_iff hm, mem_keys_iff hn, h]
    · intro k v hv
      rw [← h, hv]

/-- Changes at distinct keys change each of them once. -/
theorem find?_foldl_modify {ks : List κ} (h : ks.Nodup) (m : OrderedMap κ ν) (g : ν → ν) (a : κ) :
    (ks.foldl (fun m k ↦ m.modify k g) m).find? a =
      if a ∈ ks then (m.find? a).map g else m.find? a := by
  induction ks generalizing m with
  | nil => simp
  | cons k ks ih =>
    have hk := List.nodup_cons.mp h
    rw [List.foldl_cons, ih hk.2, find?_modify]
    by_cases ha : a = k
    · subst a
      simp [hk.1]
    · simp [ha]

end OrderedMap

namespace Chain

/-- The writers of a field behind a part of a chain, oldest first. -/
def writersOf (known : List Field) (t : Traffic) (f : Field) (part : Chain) : List Writer :=
  part.foldl (fun ws e ↦ if f ∈ e.accessed known t .write then e.credit ws else ws) [.input]

@[simp] theorem writersOf_nil (known : List Field) (t : Traffic) (f : Field) :
    writersOf known t f [] = [.input] := rfl

theorem writersOf_concat (known : List Field) (t : Traffic) (f : Field) (part : Chain)
    (e : Element) :
    writersOf known t f (part ++ [e]) =
      if f ∈ e.accessed known t .write then e.credit (writersOf known t f part)
      else writersOf known t f part := by
  simp [writersOf]

theorem writersOf_congr {known other : List Field} (h : ∀ f, f ∈ known ↔ f ∈ other)
    (t : Traffic) (f : Field) (part : Chain) :
    writersOf known t f part = writersOf other t f part := by
  simp only [writersOf, Element.mem_accessed_congr h]

end Chain

/-- The table of what the reads or the records observe; writes observe nothing. -/
def Lineage.tableOf (l : Lineage) : Access → LineageTable
  | .read => l.read
  | .write => .empty
  | .record => l.record

namespace LineageWalk

/-- The walk along a part of a chain. -/
def along (known : List Field) (t : Traffic) (part : Chain) : LineageWalk :=
  part.foldl (visit known t) (.start known)

theorem along_concat (known : List Field) (t : Traffic) (part : Chain) (e : Element) :
    along known t (part ++ [e]) = (along known t part).visit known t e := by
  simp [along]

/-- A note is found under its reader and its fields, and what was there before elsewhere. -/
theorem find?_note (w : LineageWalk) (reader r : Reader) (fields : List Field) (f : Field)
    (table : LineageTable) :
    (w.note reader fields table).find? (r, f) =
      if r = reader ∧ f ∈ fields then some (w.writersOf f) else table.find? (r, f) := by
  unfold note
  induction fields generalizing table with
  | nil => simp
  | cons g fields ih =>
    rw [List.foldl_cons, ih, OrderedMap.find?_insert]
    by_cases hf : f = g
    · subst f
      by_cases hr : r = reader <;> simp [hr]
    · simp [hf]

/-- The walk knows the writers of every known field. -/
theorem writersOf_along {known : List Field} (hk : known.Nodup) {t : Traffic} {part : Chain}
    (h : part.HasDistinctFields t) {f : Field} (hf : f ∈ known) :
    (along known t part).writersOf f = part.writersOf known t f := by
  have found : (along known t part).writers.find? f = some (part.writersOf known t f) := by
    induction part using List.reverseRecOn with
    | nil => simp [along, start, OrderedMap.find?_ofKeys, hf]
    | append_singleton part e ih =>
      have hp : Chain.HasDistinctFields t part := fun d hd ↦ h d (List.mem_append_left _ hd)
      have hw : (e.accessed known t .write).Nodup := h.nodup_accessed hk (by simp) .write
      rw [along_concat, Chain.writersOf_concat]
      refine (OrderedMap.find?_foldl_modify hw (along known t part).writers e.credit f).trans ?_
      rw [ih hp]
      split <;> rfl
  rw [writersOf, found, Option.getD_some]

theorem tableOf_visit (known : List Field) (t : Traffic) (w : LineageWalk) (e : Element)
    {a : Access} (ha : a ≠ .write) :
    (w.visit known t e).tables.tableOf a =
      w.note (.element e.identity) (e.accessed known t a) (w.tables.tableOf a) := by
  cases a with
  | read => rfl
  | record => rfl
  | write => exact absurd rfl ha

/-- The rows of an identity are untouched where it accesses nothing. -/
theorem find?_along_append {known : List Field} {t : Traffic} {a : Access} {identity : String}
    {f : Field} {part rest : Chain}
    (h : ∀ e ∈ rest, e.identity = identity → f ∉ e.accessed known t a) :
    ((along known t (part ++ rest)).tables.tableOf a).find? (.element identity, f) =
      ((along known t part).tables.tableOf a).find? (.element identity, f) := by
  by_cases ha : a = .write
  · subst a
    rfl
  induction rest using List.reverseRecOn with
  | nil => rw [List.append_nil]
  | append_singleton rest e ih =>
    rw [← List.append_assoc, along_concat, tableOf_visit known t _ e ha, find?_note,
      if_neg, ih fun d hd ↦ h d (List.mem_append_left _ hd)]
    rintro ⟨hi, hf⟩
    exact h e (by simp) (Reader.element.inj hi).symm hf

theorem find?_along_output (known : List Field) (t : Traffic) (a : Access) (f : Field)
    (part : Chain) :
    ((along known t part).tables.tableOf a).find? (.output, f) = none := by
  by_cases ha : a = .write
  · subst a
    rfl
  induction part using List.reverseRecOn with
  | nil => cases a <;> rfl
  | append_singleton part e ih =>
    rw [along_concat, tableOf_visit known t _ e ha, find?_note, if_neg (by simp), ih]

end LineageWalk

namespace Chain

/-- The writers that a reader observes on a field when it reads or records it. -/
def observes (chain : Chain) (t : Traffic) (a : Access) (r : Reader) (f : Field) :
    Option (List Writer) :=
  ((Lineage.trace chain t).tableOf a).find? (r, f)

private theorem observes_element (chain : Chain) (t : Traffic) (a : Access) (identity : String)
    (f : Field) :
    chain.observes t a (.element identity) f =
      ((LineageWalk.along (chain.knownFields t) t chain).tables.tableOf a).find?
        (.element identity, f) := by
  cases a with
  | read =>
    change ((LineageWalk.along (chain.knownFields t) t chain).note .output _ _).find? _ = _
    rw [LineageWalk.find?_note, if_neg (by simp)]
    rfl
  | write => rfl
  | record => rfl

/-- An identity observes nothing on a field that none of its elements accesses. -/
theorem observes_of_forall_not_mem {chain : Chain} {t : Traffic} {a : Access} {identity : String}
    {f : Field}
    (h : ∀ e ∈ chain, e.identity = identity → f ∉ e.accessed (chain.knownFields t) t a) :
    chain.observes t a (.element identity) f = none := by
  rw [observes_element, ← List.nil_append chain, LineageWalk.find?_along_append (by simpa using h)]
  cases a <;> rfl

/-- An identity observes on a field the writers in front of its last element that accesses it. -/
theorem observes_of_last {before rest : Chain} {e : Element} {t : Traffic} {a : Access}
    {f : Field} (ha : a ≠ .write) (hd : (before ++ e :: rest).HasDistinctFields t)
    (hf : f ∈ e.accessed ((before ++ e :: rest).knownFields t) t a)
    (hl : ∀ d ∈ rest, d.identity = e.identity →
      f ∉ d.accessed ((before ++ e :: rest).knownFields t) t a) :
    (before ++ e :: rest).observes t a (.element e.identity) f =
      some (before.writersOf ((before ++ e :: rest).knownFields t) t f) := by
  have hk := nodup_knownFields t (before ++ e :: rest)
  have known := mem_knownFields_of_mem_accessed (by simp) hf
  have split : before ++ e :: rest = before ++ [e] ++ rest := by simp
  rw [observes_element]
  generalize (before ++ e :: rest).knownFields t = fields at *
  rw [split, LineageWalk.find?_along_append hl, LineageWalk.along_concat,
    LineageWalk.tableOf_visit _ _ _ _ ha, LineageWalk.find?_note, if_pos ⟨rfl, hf⟩,
    LineageWalk.writersOf_along hk (fun d hm ↦ hd d (List.mem_append_left _ hm)) known]

/-- An element with an identity of its own observes the writers in front of it on the fields that
it accesses, and nothing on others. -/
theorem observes_of_distinct {before rest : Chain} {e : Element} {t : Traffic} {a : Access}
    (hi : ((before ++ e :: rest).map Element.identity).Nodup) (ha : a ≠ .write)
    (hd : (before ++ e :: rest).HasDistinctFields t) (f : Field) :
    (before ++ e :: rest).observes t a (.element e.identity) f =
      if f ∈ e.accessed ((before ++ e :: rest).knownFields t) t a then
        some (before.writersOf ((before ++ e :: rest).knownFields t) t f)
      else none := by
  rw [List.map_append, List.map_cons, List.nodup_append, List.nodup_cons] at hi
  have hr : ∀ d ∈ rest, d.identity ≠ e.identity := fun d hd he ↦
    hi.2.1.1 (he ▸ List.mem_map_of_mem hd)
  split
  · next hf => exact observes_of_last ha hd hf fun d hd he ↦ absurd he (hr d hd)
  · next hf =>
    apply observes_of_forall_not_mem
    intro d hd he
    rcases List.mem_append.mp hd with hd | hd
    · exact absurd he (hi.2.2 _ (List.mem_map_of_mem hd) _ List.mem_cons_self)
    · rcases List.mem_cons.mp hd with rfl | hd
      · exact hf
      · exact absurd he (hr d hd)

/-- The output observes on every known field the writers behind the chain. -/
theorem observes_output {chain : Chain} {t : Traffic} (hd : chain.HasDistinctFields t)
    (f : Field) :
    chain.observes t .read .output f =
      if f ∈ chain.knownFields t then some (chain.writersOf (chain.knownFields t) t f)
      else none := by
  change ((LineageWalk.along (chain.knownFields t) t chain).note .output _ _).find? _ = _
  rw [LineageWalk.find?_note]
  by_cases hf : f ∈ chain.knownFields t
  · rw [if_pos ⟨rfl, hf⟩, if_pos hf,
      LineageWalk.writersOf_along (nodup_knownFields t chain) hd hf]
  · rw [if_neg fun h ↦ hf h.2, if_neg hf]
    exact LineageWalk.find?_along_output _ t .read f chain

/-- An element without effects leaves no trace in the lineage, wherever it stands. -/
theorem trace_insert_idle {t : Traffic} {e : Element} (he : e.on t = .none)
    (before rest : Chain) :
    Lineage.trace (before ++ e :: rest) t = Lineage.trace (before ++ rest) t := by
  have hv (known : List Field) (w : LineageWalk) : w.visit known t e = w := by
    simp only [LineageWalk.visit, he]
    rfl
  have hl : (e.on t).listedFields = [] := by
    rw [he]
    rfl
  have hk : knownFields (before ++ e :: rest) t = knownFields (before ++ rest) t := by
    simp only [knownFields, List.flatMap_append, List.flatMap_cons, hl, List.nil_append]
  simp only [Lineage.trace, hk, List.foldl_append, List.foldl_cons, hv]

/-- The output records nothing. -/
theorem observes_record_output (chain : Chain) (t : Traffic) (f : Field) :
    chain.observes t .record .output f = none :=
  LineageWalk.find?_along_output _ t .record f chain

end Chain

namespace Lineage

/-- The lineage of a chain is built exactly if none of its sets lists a field twice. -/
theorem ofChain_eq_ok_iff {chain : Chain} {t : Traffic} {lineage : Lineage} :
    ofChain chain t = .ok lineage ↔ chain.HasDistinctFields t ∧ lineage = trace chain t := by
  rw [← chain.firstDuplicate?_eq_none_iff t, ofChain]
  cases chain.firstDuplicate? t <;> simp [eq_comm]

/-- Lineages have the same reads exactly if every reader observes the same writers. -/
theorem sameReads_iff (a b : Chain) (t : Traffic) :
    (trace a t).sameReads (trace b t) = true ↔
      ∀ r f, a.observes t .read r f = b.observes t .read r f := by
  rw [sameReads, OrderedMap.sameEntries_iff (LineageIndex.trace_indexes a t).1.2.2
    (LineageIndex.trace_indexes b t).1.2.2]
  exact Prod.forall

/-- Lineages have the same records exactly if every recorder observes the same writers. -/
theorem sameRecords_iff (a b : Chain) (t : Traffic) :
    (trace a t).sameRecords (trace b t) = true ↔
      ∀ r f, a.observes t .record r f = b.observes t .record r f := by
  rw [sameRecords, OrderedMap.sameEntries_iff (LineageIndex.trace_indexes a t).2.2.2
    (LineageIndex.trace_indexes b t).2.2.2]
  exact Prod.forall

end Lineage

end ChainPlan
