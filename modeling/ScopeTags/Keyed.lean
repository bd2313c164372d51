/-!
# Lists with keys

A list of values with keys is put into increasing order of the keys.  Values of one key stay in the
order in which they stand, so the first value of a key stays the first one.
-/

namespace ScopeTags.Keyed

variable {α β : Type} {m : String × α} {ms ms' : List (String × α)}

/-- Put `m` before the first value whose key is not smaller. -/
def insert (m : String × α) : List (String × α) → List (String × α)
  | [] => [m]
  | n :: ns => if n.1 < m.1 then n :: insert m ns else m :: n :: ns

/-- The values in increasing order of their keys. -/
def sort : List (String × α) → List (String × α)
  | [] => []
  | m :: ms => insert m (sort ms)

theorem insert_perm (m : String × α) (ms : List (String × α)) : (insert m ms).Perm (m :: ms) := by
  induction ms with
  | nil => exact .refl _
  | cons n ns ih =>
    rw [insert]
    split
    · exact (ih.cons n).trans (.swap m n ns)
    · exact .refl _

theorem sort_perm (ms : List (String × α)) : (sort ms).Perm ms := by
  induction ms with
  | nil => exact .refl _
  | cons m ms ih => exact (insert_perm m (sort ms)).trans (ih.cons m)

/-- Keys that differ are in increasing order after one more is inserted. -/
theorem insert_increases (hnew : ∀ n ∈ ms, n.1 ≠ m.1) (h : ms.Pairwise fun a b => a.1 < b.1) :
    (insert m ms).Pairwise fun a b => a.1 < b.1 := by
  induction ms with
  | nil => simp [insert]
  | cons n ns ih =>
    obtain ⟨hfirst, hrest⟩ := List.pairwise_cons.mp h
    rw [insert]
    split
    · next hlt =>
      refine List.pairwise_cons.mpr ⟨fun a ha => ?_, ih (fun k hk => hnew k (.tail n hk)) hrest⟩
      rcases List.mem_cons.mp ((insert_perm m ns).mem_iff.mp ha) with rfl | ha
      · exact hlt
      · exact hfirst a ha
    · next hnlt =>
      have hlt : m.1 < n.1 :=
        (Std.lt_trichotomy m.1 n.1).resolve_right
          (not_or.mpr ⟨fun heq => hnew n (.head _) heq.symm, hnlt⟩)
      refine List.pairwise_cons.mpr ⟨fun a ha => ?_, h⟩
      rcases List.mem_cons.mp ha with rfl | ha
      · exact hlt
      · exact String.lt_trans hlt (hfirst a ha)

/-- Keys that differ are put into strictly increasing order. -/
theorem sort_increases (h : (ms.map Prod.fst).Nodup) :
    (sort ms).Pairwise fun a b => a.1 < b.1 := by
  induction ms with
  | nil => exact .nil
  | cons m ms ih =>
    obtain ⟨hnew, hrest⟩ := List.nodup_cons.mp h
    refine insert_increases (fun n hn heq => hnew ?_) (ih hrest)
    exact heq ▸ List.mem_map_of_mem ((sort_perm ms).mem_iff.mp hn)

/-- The order of the values before they are sorted leaves no trace. -/
theorem sort_eq_of_perm (hperm : ms.Perm ms') (h : (ms.map Prod.fst).Nodup) :
    sort ms = sort ms' := by
  have h' : (ms'.map Prod.fst).Nodup := (hperm.map Prod.fst).nodup h
  have hsorted : (sort ms).Perm (sort ms') :=
    (sort_perm ms).trans (hperm.trans (sort_perm ms').symm)
  refine hsorted.eq_of_pairwise (fun a b _ _ hab hba => ?_) (sort_increases h) (sort_increases h')
  exact absurd (String.lt_trans hab hba) (String.lt_irrefl _)

theorem lookup_insert (key : String) (m : String × α) (ms : List (String × α)) :
    (insert m ms).lookup key = (m :: ms).lookup key := by
  induction ms with
  | nil => rfl
  | cons n ns ih =>
    rw [insert]
    split
    · next hlt =>
      have hne : n.1 ≠ m.1 := fun heq => String.lt_irrefl _ (heq ▸ hlt)
      obtain ⟨k, v⟩ := m
      obtain ⟨l, w⟩ := n
      simp only [List.lookup_cons] at ih ⊢
      by_cases hk : key = l
      · simp [hk, beq_false_of_ne hne]
      · simp [ih, beq_false_of_ne hk]
    · rfl

/-- What is found under a key is found there after sorting. -/
theorem lookup_sort (key : String) (ms : List (String × α)) :
    (sort ms).lookup key = ms.lookup key := by
  induction ms with
  | nil => rfl
  | cons m ms ih =>
    obtain ⟨k, v⟩ := m
    rw [sort, lookup_insert, List.lookup_cons, List.lookup_cons, ih]

theorem insert_map (f : α → β) (m : String × α) (ms : List (String × α)) :
    insert (m.1, f m.2) (ms.map fun m => (m.1, f m.2)) =
      (insert m ms).map fun m => (m.1, f m.2) := by
  induction ms with
  | nil => rfl
  | cons n ns ih =>
    rw [List.map_cons, insert, insert]
    split
    · rw [ih, List.map_cons]
    · rfl

/-- Only the keys matter for the order. -/
theorem sort_map (f : α → β) (ms : List (String × α)) :
    sort (ms.map fun m => (m.1, f m.2)) = (sort ms).map fun m => (m.1, f m.2) := by
  induction ms with
  | nil => rfl
  | cons m ms ih => rw [List.map_cons, sort, ih, insert_map, sort]

end ScopeTags.Keyed
