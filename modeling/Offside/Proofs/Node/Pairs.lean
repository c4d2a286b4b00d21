import Mathlib.Data.List.Induction
import Mathlib.Data.List.Nodup
import Offside.Grammar.Expressions

/-! # Pairs with distinct keys

Whatever pairs are added one after the other, each key stands once. Pairs whose keys are distinct
are kept as they are.
-/

namespace Offside.Grammar

theorem keys_insertPair (pairs : List (String × Node)) (entry : String × Node) :
    (insertPair pairs entry).map (·.1) =
      if entry.1 ∈ pairs.map (·.1) then pairs.map (·.1) else pairs.map (·.1) ++ [entry.1] := by
  induction pairs with
  | nil => simp [insertPair]
  | cons first rest ih =>
    by_cases h : first.1 = entry.1
    · simp [insertPair, h]
    · have h' : entry.1 ≠ first.1 := fun heq => h heq.symm
      simp only [insertPair, h, if_false, List.map_cons, ih, List.mem_cons, h', false_or]
      split <;> rfl

theorem nodup_insertPair {pairs : List (String × Node)} (h : (pairs.map (·.1)).Nodup)
    (entry : String × Node) : ((insertPair pairs entry).map (·.1)).Nodup := by
  rw [keys_insertPair]
  split
  · exact h
  · next hnew => exact h.append (List.nodup_singleton _) (by simpa using hnew)

theorem mem_insertPair {pairs : List (String × Node)} {entry other : String × Node}
    (h : other ∈ insertPair pairs entry) : other = entry ∨ other ∈ pairs := by
  induction pairs with
  | nil => exact .inl (List.mem_singleton.1 h)
  | cons first rest ih =>
    unfold insertPair at h
    split at h
    · exact (List.mem_cons.1 h).imp id (List.mem_cons_of_mem first)
    · rcases List.mem_cons.1 h with rfl | h
      · exact .inr List.mem_cons_self
      · exact (ih h).imp id (List.mem_cons_of_mem first)

/-- Keys are distinct and values are those given, whatever the keys given. -/
theorem nodup_insertPairs {pairs : List (String × Node)} (h : (pairs.map (·.1)).Nodup)
    (entries : List (String × Node)) : ((entries.foldl insertPair pairs).map (·.1)).Nodup := by
  induction entries generalizing pairs with
  | nil => exact h
  | cons entry entries ih => exact ih (nodup_insertPair h entry)

theorem mem_insertPairs {pairs entries : List (String × Node)} {other : String × Node}
    (h : other ∈ entries.foldl insertPair pairs) : other ∈ pairs ∨ other ∈ entries := by
  induction entries generalizing pairs with
  | nil => exact .inl h
  | cons entry entries ih =>
    rcases ih h with h | h
    · rcases mem_insertPair h with rfl | h
      · exact .inr List.mem_cons_self
      · exact .inl h
    · exact .inr (List.mem_cons_of_mem entry h)

theorem insertPair_of_notMem {pairs : List (String × Node)} {entry : String × Node}
    (h : entry.1 ∉ pairs.map (·.1)) : insertPair pairs entry = pairs ++ [entry] := by
  induction pairs with
  | nil => rfl
  | cons first rest ih =>
    rw [List.map_cons, List.mem_cons, not_or] at h
    rw [insertPair, if_neg fun heq => h.1 heq.symm, ih h.2, List.cons_append]

theorem insertPairs_append {pairs entries : List (String × Node)}
    (h : ((pairs ++ entries).map (·.1)).Nodup) :
    entries.foldl insertPair pairs = pairs ++ entries := by
  induction entries generalizing pairs with
  | nil => exact (List.append_nil pairs).symm
  | cons entry entries ih =>
    have hnew : entry.1 ∉ pairs.map (·.1) := by
      rw [List.map_append, List.nodup_append] at h
      exact fun hmem => h.2.2 _ hmem _ List.mem_cons_self rfl
    rw [List.foldl_cons, insertPair_of_notMem hnew, ih, List.append_assoc, List.singleton_append]
    rwa [List.append_assoc, List.singleton_append]

theorem insertPairs_of_nodup {entries : List (String × Node)} (h : (entries.map (·.1)).Nodup) :
    entries.foldl insertPair [] = entries :=
  @insertPairs_append [] entries h

/-! ## Repeated keys -/

theorem keys_insertPairs (entries : List (String × Node)) :
    (entries.foldl insertPair []).map (·.1) = (entries.map (·.1)).eraseDups := by
  induction entries using List.reverseRecOn with
  | nil => rfl
  | append_singleton entries entry ih =>
    rw [List.foldl_append, List.foldl_cons, List.foldl_nil, keys_insertPair, ih, List.map_append,
      List.eraseDups_append, List.map_singleton]
    by_cases h : entry.1 ∈ entries.map (·.1)
    · have hnew : [entry.1].removeAll (entries.map (·.1)) = [] := by
        simpa [List.removeAll] using h
      rw [if_pos (List.mem_eraseDups.2 h), hnew, List.eraseDups_nil, List.append_nil]
    · have hnew : [entry.1].removeAll (entries.map (·.1)) = [entry.1] := by
        simpa [List.removeAll] using h
      rw [if_neg (mt List.mem_eraseDups.1 h), hnew]
      rfl

theorem lookup_insertPairs (entries : List (String × Node)) (key : String) :
    (entries.foldl insertPair []).lookup key = entries.reverse.lookup key := by
  induction entries using List.reverseRecOn with
  | nil => rfl
  | append_singleton entries entry ih =>
    obtain ⟨own, value⟩ := entry
    rw [List.foldl_append, List.foldl_cons, List.foldl_nil, lookup_insertPair, ih,
      List.reverse_concat, List.lookup_cons]
    by_cases h : key = own
    · simp [h]
    · rw [if_neg h, beq_false_of_ne h]

/-- Pairs with distinct keys are known from the keys and from what is looked up. -/
theorem filterMap_lookup {pairs : List (String × Node)} (h : (pairs.map (·.1)).Nodup) :
    ((pairs.map (·.1)).filterMap fun key =>
      (pairs.lookup key).map fun value => (key, value)) = pairs := by
  induction pairs with
  | nil => rfl
  | cons pair pairs ih =>
    obtain ⟨own, value⟩ := pair
    rw [List.map_cons, List.nodup_cons] at h
    have hrest : ∀ key ∈ pairs.map (·.1),
        ((own, value) :: pairs).lookup key = pairs.lookup key := by
      intro key hmem
      have hne : key ≠ own := fun heq => h.1 (heq ▸ hmem)
      rw [List.lookup_cons, beq_false_of_ne hne]
    rw [List.map_cons, List.filterMap_cons_some (by rw [List.lookup_cons_self, Option.map_some]),
      List.filterMap_congr fun key hmem => by rw [hrest key hmem], ih h.2]

/-- The distinct keys in the order of their first entries, each with the value of its last one. -/
def lastWins (entries : List (String × Node)) : List (String × Node) :=
  (entries.map (·.1)).eraseDups.filterMap fun key =>
    (entries.reverse.lookup key).map fun value => (key, value)

theorem insertPairs_eq_lastWins (entries : List (String × Node)) :
    entries.foldl insertPair [] = lastWins entries := by
  have hnodup : ((entries.foldl insertPair []).map (·.1)).Nodup :=
    @nodup_insertPairs [] List.nodup_nil entries
  rw [← filterMap_lookup hnodup, keys_insertPairs, lastWins]
  simp only [lookup_insertPairs]

end Offside.Grammar
