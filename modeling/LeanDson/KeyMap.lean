import Mathlib.Data.List.Basic
import Mathlib.Order.Lattice

/-! Ordered maps as association lists in strictly increasing key order. -/

namespace LeanDson.KeyMap

variable {κ α : Type}

def keys (m : List (κ × α)) : List κ := m.map Prod.fst

@[simp] theorem keys_nil : keys ([] : List (κ × α)) = [] := rfl

@[simp] theorem keys_cons (p : κ × α) (m : List (κ × α)) : keys (p :: m) = p.1 :: keys m := rfl

theorem keys_forall₂ {β : Type} {R : κ → α → β → Prop} {m : List (κ × α)} {n : List (κ × β)}
    (h : List.Forall₂ (fun p q => p.1 = q.1 ∧ R p.1 p.2 q.2) m n) : keys m = keys n := by
  induction h with
  | nil => rfl
  | cons hpq _ ih => rw [keys_cons, keys_cons, hpq.1, ih]

variable [LinearOrder κ]

/-- The value bound to a key. -/
def find (k : κ) : List (κ × α) → Option α
  | [] => none
  | (k', v) :: rest => if k = k' then some v else find k rest

/-- Bind a key, replacing the value it had. -/
def insertOrAssign (k : κ) (v : α) : List (κ × α) → List (κ × α)
  | [] => [(k, v)]
  | (k', v') :: rest =>
      if k < k' then (k, v) :: (k', v') :: rest
      else if k = k' then (k, v) :: rest
      else (k', v') :: insertOrAssign k v rest

/-- Keys in strictly increasing order. -/
def Sorted (m : List (κ × α)) : Prop := (keys m).Pairwise (· < ·)

theorem sorted_nil : Sorted ([] : List (κ × α)) := List.Pairwise.nil

theorem sorted_cons {p : κ × α} {m : List (κ × α)} :
    Sorted (p :: m) ↔ (∀ k ∈ keys m, p.1 < k) ∧ Sorted m := by
  rw [Sorted, keys_cons, List.pairwise_cons, Sorted]

theorem Sorted.tail {p : κ × α} {m : List (κ × α)} (h : Sorted (p :: m)) : Sorted m :=
  (sorted_cons.mp h).2

/-- Being sorted is a matter of the keys. -/
theorem Sorted.congr {β : Type} {m : List (κ × α)} {n : List (κ × β)} (h : Sorted m) (hkeys : keys n = keys m) :
    Sorted n := by
  rw [Sorted, hkeys]
  exact h

theorem find_eq_none {k : κ} {m : List (κ × α)} : find k m = none ↔ k ∉ keys m := by
  induction m with
  | nil => simp [find]
  | cons p m ih =>
      rw [find, keys_cons, List.mem_cons, not_or]
      split_ifs with heq
      · simp [heq]
      · simp [heq, ih]

theorem mem_keys_of_find {k : κ} {v : α} {m : List (κ × α)} (h : find k m = some v) : k ∈ keys m := by
  by_contra hk
  rw [find_eq_none.mpr hk] at h
  cases h

theorem mem_of_find {k : κ} {v : α} {m : List (κ × α)} (h : find k m = some v) : (k, v) ∈ m := by
  induction m with
  | nil => cases h
  | cons p m ih =>
      rw [find] at h
      split_ifs at h with heq
      · cases h
        subst heq
        exact List.mem_cons_self
      · exact List.mem_cons_of_mem _ (ih h)

theorem find_of_mem {k : κ} {v : α} {m : List (κ × α)} (hs : Sorted m) (h : (k, v) ∈ m) :
    find k m = some v := by
  induction m with
  | nil => cases h
  | cons p m ih =>
      obtain ⟨hlt, htail⟩ := sorted_cons.mp hs
      rw [find]
      rcases List.mem_cons.mp h with rfl | hmem
      · rw [if_pos rfl]
      · have hk : p.1 < k := hlt k (List.mem_map_of_mem (f := Prod.fst) hmem)
        rw [if_neg (ne_of_gt hk), ih htail hmem]

@[simp] theorem find_insertOrAssign_self (k : κ) (v : α) (m : List (κ × α)) :
    find k (insertOrAssign k v m) = some v := by
  induction m with
  | nil => simp [insertOrAssign, find]
  | cons p m ih =>
      rw [insertOrAssign]
      split_ifs with hlt heq
      · simp [find]
      · simp [find]
      · rw [find, if_neg heq, ih]

theorem find_insertOrAssign_ne {k k' : κ} (hne : k ≠ k') (v : α) (m : List (κ × α)) :
    find k (insertOrAssign k' v m) = find k m := by
  induction m with
  | nil => simp [insertOrAssign, find, hne]
  | cons p m ih =>
      rw [insertOrAssign]
      split_ifs with hlt heq
      · rw [find, if_neg hne]
      · subst heq
        rw [find, find, if_neg hne, if_neg hne]
      · rw [find, find, ih]

theorem mem_keys_insertOrAssign {k k' : κ} {v : α} {m : List (κ × α)} :
    k ∈ keys (insertOrAssign k' v m) ↔ k = k' ∨ k ∈ keys m := by
  induction m with
  | nil => simp [insertOrAssign]
  | cons p m ih =>
      rw [insertOrAssign]
      split_ifs with hlt heq
      · simp
      · subst heq
        simp
      · rw [keys_cons, List.mem_cons, ih, keys_cons, List.mem_cons]
        tauto

/-- An assignment to a key that is there leaves the keys as they are. -/
theorem keys_insertOrAssign_of_mem {k : κ} {v : α} {m : List (κ × α)} (hs : Sorted m) (h : k ∈ keys m) :
    keys (insertOrAssign k v m) = keys m := by
  induction m with
  | nil => cases h
  | cons p m ih =>
      rw [insertOrAssign]
      split_ifs with hlt heq
      · exfalso
        rcases List.mem_cons.mp h with rfl | hm
        · exact lt_irrefl _ hlt
        · exact lt_asymm hlt ((sorted_cons.mp hs).1 k hm)
      · rw [keys_cons, keys_cons, heq]
      · have hm : k ∈ keys m := (List.mem_cons.mp h).resolve_left fun hk => heq hk
        rw [keys_cons, keys_cons, ih hs.tail hm]

theorem mem_of_insertOrAssign {k : κ} {v : α} {m : List (κ × α)} {p : κ × α} (h : p ∈ insertOrAssign k v m) :
    p = (k, v) ∨ p ∈ m := by
  induction m with
  | nil => exact Or.inl (List.mem_singleton.mp h)
  | cons q m ih =>
      rw [insertOrAssign] at h
      split_ifs at h
      · exact List.mem_cons.mp h
      · exact (List.mem_cons.mp h).imp_right fun hp => List.mem_cons_of_mem _ hp
      · rcases List.mem_cons.mp h with rfl | hp
        · exact Or.inr List.mem_cons_self
        · exact (ih hp).imp_right fun hp => List.mem_cons_of_mem _ hp

theorem mem_insertOrAssign {k : κ} {v : α} {m : List (κ × α)} (hs : Sorted m) {p : κ × α} :
    p ∈ insertOrAssign k v m ↔ p = (k, v) ∨ p ∈ m ∧ p.1 ≠ k := by
  induction m with
  | nil => simp [insertOrAssign]
  | cons q m ih =>
      obtain ⟨hbelow, htail⟩ := sorted_cons.mp hs
      have hkey : ∀ p ∈ m, q.1 < p.1 := fun p hp => hbelow p.1 (List.mem_map_of_mem hp)
      rw [insertOrAssign]
      split_ifs with hlt heq
      · have hne : ∀ p ∈ q :: m, p.1 ≠ k := by
          intro p hp
          rcases List.mem_cons.mp hp with rfl | hp
          · exact ne_of_gt hlt
          · exact ne_of_gt (lt_trans hlt (hkey p hp))
        rw [List.mem_cons]
        exact or_congr_right ⟨fun hp => ⟨hp, hne p hp⟩, And.left⟩
      · subst heq
        rw [List.mem_cons, List.mem_cons]
        refine or_congr_right ⟨fun hp => ⟨Or.inr hp, ne_of_gt (hkey p hp)⟩, ?_⟩
        rintro ⟨rfl | hp, hne⟩
        · exact absurd rfl hne
        · exact hp
      · rw [List.mem_cons, ih htail, List.mem_cons]
        constructor
        · rintro (rfl | rfl | ⟨hp, hne⟩)
          · exact Or.inr ⟨Or.inl rfl, Ne.symm heq⟩
          · exact Or.inl rfl
          · exact Or.inr ⟨Or.inr hp, hne⟩
        · rintro (rfl | ⟨rfl | hp, hne⟩)
          · exact Or.inr (Or.inl rfl)
          · exact Or.inl rfl
          · exact Or.inr (Or.inr ⟨hp, hne⟩)

theorem sorted_insertOrAssign {m : List (κ × α)} (hs : Sorted m) (k : κ) (v : α) :
    Sorted (insertOrAssign k v m) := by
  induction m with
  | nil => simp [insertOrAssign, Sorted, keys]
  | cons p m ih =>
      obtain ⟨hbelow, htail⟩ := sorted_cons.mp hs
      rw [insertOrAssign]
      split_ifs with hlt heq
      · refine sorted_cons.mpr ⟨fun k' hk' => ?_, hs⟩
        rcases List.mem_cons.mp hk' with rfl | hmem
        · exact hlt
        · exact lt_trans hlt (hbelow k' hmem)
      · subst heq
        exact sorted_cons.mpr ⟨hbelow, htail⟩
      · refine sorted_cons.mpr ⟨fun k' hk' => ?_, ih htail⟩
        rcases mem_keys_insertOrAssign.mp hk' with rfl | hmem
        · exact lt_of_le_of_ne (not_lt.mp hlt) (Ne.symm heq)
        · exact hbelow k' hmem

theorem insertOrAssign_ne_nil (k : κ) (v : α) (m : List (κ × α)) : insertOrAssign k v m ≠ [] := by
  cases m with
  | nil => simp [insertOrAssign]
  | cons p m =>
      rw [insertOrAssign]
      split_ifs <;> simp

/-- Binding a key to the value it has changes nothing. -/
theorem insertOrAssign_find {k : κ} {v : α} {m : List (κ × α)}
    (h : find k m = some v) (hs : Sorted m) : insertOrAssign k v m = m := by
  induction m with
  | nil => cases h
  | cons p m ih =>
      obtain ⟨k', v'⟩ := p
      obtain ⟨hlt, htail⟩ := sorted_cons.mp hs
      rw [find] at h
      rw [insertOrAssign]
      by_cases heq : k = k'
      · rw [if_pos heq] at h
        cases h
        rw [if_neg (by simp [heq]), if_pos heq, heq]
      · rw [if_neg heq] at h
        have hk : k' < k := hlt k (mem_keys_of_find h)
        rw [if_neg (not_lt_of_gt hk), if_neg heq, ih h htail]

/-- Inserting above every key appends. -/
theorem insertOrAssign_append {k : κ} {v : α} {m : List (κ × α)} (h : ∀ k' ∈ keys m, k' < k) :
    insertOrAssign k v m = m ++ [(k, v)] := by
  induction m with
  | nil => rfl
  | cons p m ih =>
      have hp : p.1 < k := h p.1 List.mem_cons_self
      rw [insertOrAssign, if_neg (not_lt_of_gt hp), if_neg (ne_of_gt hp),
        ih (fun k' hk' => h k' (List.mem_cons_of_mem _ hk')), List.cons_append]

/-- Insertion in maps with related values. -/
theorem forall₂_insertOrAssign {β : Type} {R : κ → α → β → Prop} {m : List (κ × α)} {n : List (κ × β)}
    (h : List.Forall₂ (fun p q => p.1 = q.1 ∧ R p.1 p.2 q.2) m n) (k : κ) {v : α} {w : β} (hv : R k v w) :
    List.Forall₂ (fun p q => p.1 = q.1 ∧ R p.1 p.2 q.2) (insertOrAssign k v m) (insertOrAssign k w n) := by
  induction h with
  | nil => exact .cons ⟨rfl, hv⟩ .nil
  | @cons p q m n hpq hrest ih =>
      obtain ⟨k', w'⟩ := q
      obtain ⟨rfl, hr⟩ := hpq
      rw [insertOrAssign, insertOrAssign]
      split_ifs
      · exact .cons ⟨rfl, hv⟩ (.cons ⟨rfl, hr⟩ hrest)
      · exact .cons ⟨rfl, hv⟩ hrest
      · exact .cons ⟨rfl, hr⟩ ih

theorem find_forall₂ {β : Type} {R : κ → α → β → Prop} {m : List (κ × α)} {n : List (κ × β)}
    (h : List.Forall₂ (fun p q => p.1 = q.1 ∧ R p.1 p.2 q.2) m n) {k : κ} {w : β} (hw : find k n = some w) :
    ∃ v, find k m = some v ∧ R k v w := by
  induction h with
  | nil => cases hw
  | @cons p q m n hpq hrest ih =>
      obtain ⟨hk, hr⟩ := hpq
      rw [find, ← hk] at hw
      rw [find]
      split_ifs at hw ⊢ with heq
      · cases hw
        exact ⟨p.2, rfl, heq ▸ hr⟩
      · exact ih hw

theorem insertOrAssign_map {β : Type} (f : α → β) (k : κ) (v : α) (m : List (κ × α)) :
    insertOrAssign k (f v) (m.map fun p => (p.1, f p.2)) = (insertOrAssign k v m).map fun p => (p.1, f p.2) := by
  induction m with
  | nil => rfl
  | cons p m ih =>
      rw [List.map_cons, insertOrAssign, insertOrAssign]
      split_ifs
      · rfl
      · rfl
      · rw [ih, List.map_cons]

theorem find_map {β : Type} (f : α → β) (k : κ) (m : List (κ × α)) :
    find k (m.map fun p => (p.1, f p.2)) = (find k m).map f := by
  induction m with
  | nil => rfl
  | cons p m ih =>
      rw [List.map_cons, find, find]
      split_ifs
      · rfl
      · exact ih

end LeanDson.KeyMap
