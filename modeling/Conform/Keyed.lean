/-!
# Keyed pairs

Pairs held in the order of their keys, each key once. Putting a pair in
replaces the one with the same key.
-/

namespace Conform.Keyed

universe u

variable {α : Type u}

/-- Keys come in strictly rising order. -/
def Sorted (pairs : List (String × α)) : Prop := pairs.Pairwise fun a b => a.1 < b.1

def insert (key : String) (value : α) : List (String × α) → List (String × α)
  | [] => [(key, value)]
  | (other, held) :: rest =>
    if key < other then (key, value) :: (other, held) :: rest
    else if key = other then (key, value) :: rest
    else (other, held) :: insert key value rest

/-- Pairs put in one after another, so that of equal keys the last one stays. -/
def ofList (pairs : List (String × α)) : List (String × α) :=
  pairs.foldl (fun held pair => insert pair.1 pair.2 held) []

theorem mem_insert {key : String} {value : α} {pairs : List (String × α)} {pair : String × α}
    (h : pair ∈ insert key value pairs) : pair = (key, value) ∨ pair ∈ pairs := by
  induction pairs with
  | nil => simpa [insert] using h
  | cons head rest ih =>
    obtain ⟨other, held⟩ := head
    simp only [insert] at h
    split at h
    · simpa using h
    · split at h
      · rcases List.mem_cons.mp h with h | h
        · exact .inl h
        · exact .inr (List.mem_cons_of_mem _ h)
      · rcases List.mem_cons.mp h with h | h
        · exact .inr (h ▸ List.mem_cons_self)
        · rcases ih h with h | h
          · exact .inl h
          · exact .inr (List.mem_cons_of_mem _ h)

theorem sorted_insert (key : String) (value : α) {pairs : List (String × α)}
    (h : Sorted pairs) : Sorted (insert key value pairs) := by
  induction pairs with
  | nil => simp [insert, Sorted]
  | cons head rest ih =>
    obtain ⟨other, held⟩ := head
    obtain ⟨hhead, hrest⟩ := List.pairwise_cons.mp h
    simp only [insert]
    split
    · next hlt =>
      refine List.pairwise_cons.mpr ⟨fun pair hp => ?_, h⟩
      rcases List.mem_cons.mp hp with rfl | hp
      · exact hlt
      · exact String.lt_trans hlt (hhead pair hp)
    · next hnlt =>
      split
      · next heq =>
        subst heq
        exact List.pairwise_cons.mpr ⟨hhead, hrest⟩
      · next hne =>
        refine List.pairwise_cons.mpr ⟨fun pair hp => ?_, ih hrest⟩
        rcases mem_insert hp with rfl | hp
        · exact Std.lt_of_le_of_ne (String.not_lt.mp hnlt) fun e => hne e.symm
        · exact hhead pair hp

theorem sorted_ofList (pairs : List (String × α)) : Sorted (ofList pairs) := by
  unfold ofList
  suffices ∀ held : List (String × α), Sorted held →
      Sorted (pairs.foldl (fun held pair => insert pair.1 pair.2 held) held) from
    this [] List.Pairwise.nil
  induction pairs with
  | nil => exact fun _ h => h
  | cons pair rest ih => exact fun held h => ih _ (sorted_insert _ _ h)

theorem insert_eq_append {key : String} {value : α} {pairs : List (String × α)}
    (h : ∀ pair ∈ pairs, pair.1 < key) : insert key value pairs = pairs ++ [(key, value)] := by
  induction pairs with
  | nil => rfl
  | cons head rest ih =>
    obtain ⟨other, held⟩ := head
    have hlt : other < key := h (other, held) List.mem_cons_self
    have hrest := ih fun pair hpair => h pair (List.mem_cons_of_mem _ hpair)
    rw [insert, if_neg (String.lt_asymm hlt), if_neg (String.ne_of_lt hlt).symm, hrest,
      List.cons_append]

theorem perm_insert {key : String} (value : α) {pairs : List (String × α)}
    (h : key ∉ pairs.map (·.1)) : (insert key value pairs).Perm ((key, value) :: pairs) := by
  induction pairs with
  | nil => exact .refl _
  | cons head rest ih =>
    obtain ⟨other, held⟩ := head
    rw [List.map_cons, List.mem_cons, not_or] at h
    rw [insert, if_neg h.1]
    split
    · exact .refl _
    · exact ((ih h.2).cons _).trans (.swap _ _ _)

theorem perm_ofList {pairs : List (String × α)} (h : (pairs.map (·.1)).Nodup) :
    (ofList pairs).Perm pairs := by
  unfold ofList
  suffices ∀ held : List (String × α), ((held ++ pairs).map (·.1)).Nodup →
      (pairs.foldl (fun held pair => insert pair.1 pair.2 held) held).Perm (held ++ pairs) from
    this [] h
  clear h
  induction pairs with
  | nil => exact fun held _ => by rw [List.append_nil]; exact .refl _
  | cons pair rest ih =>
    intro held hnodup
    have hmiddle : (held ++ pair :: rest).Perm (pair :: held ++ rest) := List.perm_middle
    have hkeys := (hmiddle.map (·.1)).nodup_iff.mp hnodup
    have hnew : pair.1 ∉ held.map (·.1) := by
      intro hmem
      rw [List.cons_append, List.map_cons, List.nodup_cons, List.map_append] at hkeys
      exact hkeys.1 (List.mem_append_left _ hmem)
    have hinsert := (perm_insert pair.2 hnew).append_right rest
    exact (ih _ ((hinsert.map (·.1)).nodup_iff.mpr hkeys)).trans (hinsert.trans hmiddle.symm)

theorem Sorted.nodup_keys {pairs : List (String × α)} (h : Sorted pairs) :
    (pairs.map (·.1)).Nodup := by
  rw [List.Nodup, List.pairwise_map]
  exact h.imp String.ne_of_lt

theorem ofList_eq_self {pairs : List (String × α)} (h : Sorted pairs) : ofList pairs = pairs :=
  (perm_ofList h.nodup_keys).eq_of_pairwise
    (fun _ _ _ _ hlt hgt => absurd hgt (String.lt_asymm hlt)) (sorted_ofList pairs) h

theorem lookup_cons (key other : String) (value : α) (rest : List (String × α)) :
    ((key, value) :: rest).lookup other = if other = key then some value else rest.lookup other := by
  by_cases h : other = key
  · rw [if_pos h, h, List.lookup_cons_self]
  · rw [if_neg h, List.lookup_cons, beq_eq_false_iff_ne.mpr h]

/-- Putting a pair in is seen under its key only. -/
theorem lookup_insert (key other : String) (value : α) (pairs : List (String × α)) :
    (insert key value pairs).lookup other =
      if other = key then some value else pairs.lookup other := by
  induction pairs with
  | nil => rw [insert, lookup_cons]
  | cons head rest ih =>
    obtain ⟨first, held⟩ := head
    rw [insert]
    split
    · rw [lookup_cons]
    · split
      · next heq =>
        subst heq
        rw [lookup_cons, lookup_cons]
        split <;> rfl
      · next hne =>
        rw [lookup_cons, ih, lookup_cons]
        by_cases hfirst : other = first
        · rw [if_pos hfirst, if_pos hfirst, if_neg fun heq => hne (heq.symm.trans hfirst)]
        · rw [if_neg hfirst, if_neg hfirst]

end Conform.Keyed
