import Interleaving.Dictionary
import Mathlib.Data.String.Basic

/-!
# Laws of dictionaries

What is found under a name after an entry was put in or taken away. The laws hold for every list of
entries, sorted or not.

What is built by putting values in is sorted (`Interleaving.Dictionary.Sorted`). A sorted dictionary
is determined by its entries in any order: it is made of them again
(`Interleaving.Dictionary.ofList_entries`).
-/

namespace Interleaving.Dictionary

variable {α β : Type}

theorem lookup_insertEntry_self (name : String) (v : α) (entries : List (String × α)) :
    (insertEntry name v entries).lookup name = some v := by
  induction entries with
  | nil => simp [insertEntry]
  | cons e rest ih =>
    obtain ⟨n, w⟩ := e
    unfold insertEntry
    by_cases hn : name = n
    · simp [hn]
    · rw [if_neg hn]
      by_cases hlt : name < n
      · simp [hlt]
      · rw [if_neg hlt, List.lookup_cons, beq_false_of_ne hn]
        exact ih

theorem lookup_insertEntry_of_ne {name other : String} (h : other ≠ name) (v : α)
    (entries : List (String × α)) :
    (insertEntry name v entries).lookup other = entries.lookup other := by
  induction entries with
  | nil => simp [insertEntry, List.lookup_cons, beq_false_of_ne h]
  | cons e rest ih =>
    obtain ⟨n, w⟩ := e
    unfold insertEntry
    by_cases hn : name = n
    · subst hn
      rw [if_pos rfl, List.lookup_cons, List.lookup_cons, beq_false_of_ne h]
    · rw [if_neg hn]
      by_cases hlt : name < n
      · rw [if_pos hlt, List.lookup_cons, beq_false_of_ne h]
      · rw [if_neg hlt, List.lookup_cons, List.lookup_cons, ih]

/-- A value is found under the name it was put under. -/
@[simp] theorem get?_set_self (d : Dictionary α) (name : String) (v : α) :
    (d.set name v).get? name = some v :=
  lookup_insertEntry_self name v d.entries

/-- Other names keep their values. -/
theorem get?_set_of_ne (d : Dictionary α) {name other : String} (h : other ≠ name) (v : α) :
    (d.set name v).get? other = d.get? other :=
  lookup_insertEntry_of_ne h v d.entries

/-- Other names keep their values when one is taken away. -/
theorem get?_erase_of_ne (d : Dictionary α) {name other : String} (h : other ≠ name) :
    (d.erase name).get? other = d.get? other := by
  unfold erase get?
  induction d.entries with
  | nil => rfl
  | cons e rest ih =>
    obtain ⟨n, w⟩ := e
    by_cases hn : n = name
    · subst hn
      rw [List.filter_cons_of_neg (by simp), List.lookup_cons, beq_false_of_ne h]
      exact ih
    · rw [List.filter_cons_of_pos (by simpa using hn), List.lookup_cons, List.lookup_cons, ih]

/-- Nothing is found under a name that was taken away. -/
@[simp] theorem get?_erase_self (d : Dictionary α) (name : String) :
    (d.erase name).get? name = none := by
  unfold erase get?
  induction d.entries with
  | nil => rfl
  | cons e rest ih =>
    obtain ⟨n, w⟩ := e
    by_cases hn : n = name
    · rw [List.filter_cons_of_neg (by simp [hn])]
      exact ih
    · rw [List.filter_cons_of_pos (by simpa using hn), List.lookup_cons,
        beq_false_of_ne (Ne.symm hn)]
      exact ih

/-- Nothing is found in an empty dictionary. -/
@[simp] theorem get?_empty (name : String) : (empty : Dictionary α).get? name = none := rfl

/-! ### Sorted dictionaries -/

/-- The names stand in increasing order, each of them once. -/
def Sorted (d : Dictionary α) : Prop := d.names.Pairwise (· < ·)

instance (d : Dictionary α) : Decidable d.Sorted :=
  inferInstanceAs (Decidable (d.names.Pairwise (· < ·)))

theorem names_insertEntry (name : String) (v : α) (entries : List (String × α)) {n : String} :
    n ∈ (insertEntry name v entries).map (·.1) ↔ n = name ∨ n ∈ entries.map (·.1) := by
  induction entries with
  | nil => simp [insertEntry]
  | cons e rest ih =>
    obtain ⟨m, w⟩ := e
    unfold insertEntry
    split
    · rename_i heq
      subst heq
      simp
    · split
      · simp
      · rw [List.map_cons, List.mem_cons, ih, List.map_cons, List.mem_cons]
        exact or_left_comm

/-- A dictionary stays sorted when a value is put under a name. -/
theorem Sorted.set {d : Dictionary α} (h : d.Sorted) (name : String) (v : α) :
    (d.set name v).Sorted := by
  have hgo : ∀ entries : List (String × α), (entries.map (·.1)).Pairwise (· < ·) →
      ((insertEntry name v entries).map (·.1)).Pairwise (· < ·) := by
    intro entries hsorted
    induction entries with
    | nil => simp [insertEntry]
    | cons e rest ih =>
      obtain ⟨m, w⟩ := e
      rw [List.map_cons, List.pairwise_cons] at hsorted
      obtain ⟨hfirst, hrest⟩ := hsorted
      unfold insertEntry
      split
      · rename_i heq
        subst heq
        exact List.pairwise_cons.mpr ⟨hfirst, hrest⟩
      · split
        · rename_i hlt
          refine List.pairwise_cons.mpr ⟨fun n hn => ?_, List.pairwise_cons.mpr ⟨hfirst, hrest⟩⟩
          rcases List.mem_cons.mp hn with rfl | hn
          · exact hlt
          · exact lt_trans hlt (hfirst n hn)
        · rename_i hne hnot
          refine List.pairwise_cons.mpr ⟨fun n hn => ?_, ih hrest⟩
          rcases (names_insertEntry name v rest).mp hn with rfl | hn
          · exact lt_of_le_of_ne (not_lt.mp hnot) (Ne.symm hne)
          · exact hfirst n hn
  exact hgo d.entries h

theorem sorted_empty : (empty : Dictionary α).Sorted := List.Pairwise.nil

/-- A dictionary that is made of a list is sorted. -/
theorem sorted_ofList (entries : List (String × α)) : (ofList entries).Sorted := by
  have hgo : ∀ (entries : List (String × α)) (d : Dictionary α), d.Sorted →
      (entries.foldl (fun d e => d.set e.1 e.2) d).Sorted := by
    intro entries
    induction entries with
    | nil => exact fun d h => h
    | cons e rest ih => exact fun d h => ih _ (h.set e.1 e.2)
  exact hgo entries empty sorted_empty

theorem Sorted.map {d : Dictionary α} (h : d.Sorted) (f : α → β) : (d.map f).Sorted := by
  rw [Sorted, names, Dictionary.map, List.map_map]
  exact h

/-- A new name is put in without touching what is there. -/
theorem perm_insertEntry {name : String}
    {entries : List (String × α)} (h : name ∉ entries.map (·.1)) (v : α) :
    (insertEntry name v entries).Perm ((name, v) :: entries) := by
  induction entries with
  | nil => exact List.Perm.refl _
  | cons e rest ih =>
    obtain ⟨m, w⟩ := e
    rw [List.map_cons, List.mem_cons, not_or] at h
    unfold insertEntry
    rw [if_neg h.1]
    split
    · exact List.Perm.refl _
    · exact ((ih h.2).cons (m, w)).trans (List.Perm.swap _ _ _)

/-- **A dictionary that is made of a list without repeated names holds exactly its entries.** -/
theorem perm_ofList {entries : List (String × α)} (h : (entries.map (·.1)).Nodup) :
    (ofList entries).entries.Perm entries := by
  have hgo : ∀ (entries : List (String × α)) (d : Dictionary α),
      (d.names ++ entries.map (·.1)).Nodup →
      (entries.foldl (fun d e => d.set e.1 e.2) d).entries.Perm (d.entries ++ entries) := by
    intro entries
    induction entries with
    | nil => exact fun d _ => by rw [List.append_nil]; exact List.Perm.refl _
    | cons e rest ih =>
      intro d hnodup
      have hnew : e.1 ∉ d.entries.map (·.1) := fun hmem =>
        (List.nodup_append.mp hnodup).2.2 e.1 hmem e.1 (by simp) rfl
      have hset : (d.set e.1 e.2).entries.Perm (e :: d.entries) := perm_insertEntry hnew e.2
      have hnames : ((d.set e.1 e.2).names ++ rest.map (·.1)).Perm
          (d.names ++ (e :: rest).map (·.1)) :=
        ((hset.map _).append_right _).trans List.perm_middle.symm
      refine (ih _ (hnames.nodup_iff.mpr hnodup)).trans ((hset.append_right rest).trans ?_)
      exact List.perm_middle.symm
  exact hgo entries empty h

theorem insertEntry_of_greater {name : String} {entries : List (String × α)}
    (h : ∀ n ∈ entries.map (·.1), n < name) (v : α) : insertEntry name v entries =
      entries ++ [(name, v)] := by
  induction entries with
  | nil => rfl
  | cons e rest ih =>
    obtain ⟨m, w⟩ := e
    have hlt : m < name := h m (by simp)
    rw [insertEntry, if_neg (ne_of_gt hlt), if_neg (lt_asymm hlt),
      ih fun n hn => h n (List.mem_cons_of_mem _ hn)]
    rfl

/-- **A sorted dictionary is made of its entries.** -/
theorem ofList_entries {d : Dictionary α} (h : d.Sorted) : ofList d.entries = d := by
  have hgo : ∀ (later earlier : List (String × α)),
      ((earlier ++ later).map (·.1)).Pairwise (· < ·) →
      later.foldl (fun d e => d.set e.1 e.2) ⟨earlier⟩ = (⟨earlier ++ later⟩ : Dictionary α) := by
    intro later
    induction later with
    | nil => exact fun earlier _ => by rw [List.append_nil]; rfl
    | cons e rest ih =>
      intro earlier hsorted
      have hgreater : ∀ n ∈ earlier.map (·.1), n < e.1 := by
        rw [List.map_append, List.map_cons] at hsorted
        exact fun n hn => (List.pairwise_append.mp hsorted).2.2 n hn e.1 List.mem_cons_self
      have hset : (⟨earlier⟩ : Dictionary α).set e.1 e.2 = ⟨earlier ++ [e]⟩ :=
        congrArg Dictionary.mk (insertEntry_of_greater hgreater e.2)
      rw [List.foldl_cons, hset, ih (earlier ++ [e]) (by rwa [List.append_assoc]),
        List.append_assoc]
      rfl
  exact hgo d.entries [] h

end Interleaving.Dictionary
