import QuicFuscate.Framework.Checked

/-!
# Tables with unique keys

A finite map is the list of its entries, in the order in which an iteration visits them.  The order
is not part of the map: what is found under a key does not depend on it as long as no key occurs
twice.
-/

namespace QuicFuscate.Framework

variable {κ α β σ : Type} {t t' : List (κ × α)} {k l : κ} {a : α}

def UniqueKeys (t : List (κ × α)) : Prop := (t.map Prod.fst).Nodup

theorem UniqueKeys.filter (h : UniqueKeys t) (p : κ × α → Bool) : UniqueKeys (t.filter p) :=
  h.sublist (List.filter_sublist.map _)

section Lookup

variable [DecidableEq κ]

/-- Store a value under a key, in the place of the value that is there. -/
def put : List (κ × α) → κ → α → List (κ × α)
  | [], k, a => [(k, a)]
  | e :: t, k, a => if e.1 = k then (k, a) :: t else e :: put t k a

theorem lookup_cons_ne (e : κ × α) (t : List (κ × α)) (h : k ≠ e.1) : (e :: t).lookup k = t.lookup k := by
  rw [List.lookup_cons, beq_false_of_ne h]

theorem lookup_put_self (t : List (κ × α)) (k : κ) (a : α) : (put t k a).lookup k = some a := by
  induction t with
  | nil => simp [put]
  | cons e t ih =>
      rw [put]
      split
      · rw [List.lookup_cons_self]
      · rename_i hne
        rw [lookup_cons_ne e _ (Ne.symm hne), ih]

theorem lookup_put_ne (t : List (κ × α)) (a : α) (h : l ≠ k) : (put t k a).lookup l = t.lookup l := by
  induction t with
  | nil => exact lookup_cons_ne (k, a) [] h
  | cons e t ih =>
      rw [put]
      split
      · rename_i heq
        rw [lookup_cons_ne (k, a) t h, lookup_cons_ne e t (heq ▸ h)]
      · rw [List.lookup_cons, List.lookup_cons, ih]

theorem mem_keys_put : l ∈ (put t k a).map Prod.fst ↔ l = k ∨ l ∈ t.map Prod.fst := by
  induction t with
  | nil => simp [put]
  | cons e t ih =>
      rw [put]
      split
      · rename_i heq
        simp [heq]
      · rw [List.map_cons, List.mem_cons, ih, List.map_cons, List.mem_cons]
        tauto

theorem mem_put {e : κ × α} (h : e ∈ put t k a) : e = (k, a) ∨ e ∈ t := by
  induction t with
  | nil => exact .inl (List.mem_singleton.mp h)
  | cons e' t ih =>
      rw [put] at h
      split at h
      · rcases List.mem_cons.mp h with rfl | h
        · exact .inl rfl
        · exact .inr (List.mem_cons_of_mem _ h)
      · rcases List.mem_cons.mp h with rfl | h
        · exact .inr List.mem_cons_self
        · exact (ih h).imp id (List.mem_cons_of_mem _)

theorem UniqueKeys.put (h : UniqueKeys t) (k : κ) (a : α) : UniqueKeys (Framework.put t k a) := by
  induction t with
  | nil => simp [UniqueKeys, Framework.put]
  | cons e t ih =>
      rw [UniqueKeys, List.map_cons, List.nodup_cons] at h
      rw [Framework.put]
      split
      · rename_i heq
        rw [UniqueKeys, List.map_cons, List.nodup_cons]
        exact heq ▸ h
      · rename_i hne
        rw [UniqueKeys, List.map_cons, List.nodup_cons]
        refine ⟨?_, ih h.2⟩
        rw [mem_keys_put, not_or]
        exact ⟨hne, h.1⟩

theorem UniqueKeys.lookup_eq_some_iff (h : UniqueKeys t) : t.lookup k = some a ↔ (k, a) ∈ t := by
  induction t with
  | nil => simp
  | cons e t ih =>
      rw [UniqueKeys, List.map_cons, List.nodup_cons] at h
      rw [List.mem_cons]
      by_cases heq : k = e.1
      · rw [heq, List.lookup_cons_self, Option.some.injEq]
        constructor
        · rintro rfl
          exact .inl rfl
        · rintro (hhead | htail)
          · rw [← hhead]
          · exact absurd (List.mem_map_of_mem (f := Prod.fst) htail) h.1
      · rw [lookup_cons_ne e t heq, ih h.2]
        constructor
        · exact .inr
        · rintro (hhead | htail)
          · exact absurd (congrArg Prod.fst hhead) heq
          · exact htail

theorem UniqueKeys.lookup_perm (h : UniqueKeys t) (hperm : t'.Perm t) (k : κ) : t'.lookup k = t.lookup k := by
  have h' : UniqueKeys t' := (hperm.map Prod.fst).nodup_iff.mpr h
  ext a
  rw [h'.lookup_eq_some_iff, h.lookup_eq_some_iff, hperm.mem_iff]

theorem lookup_filter (t : List (κ × α)) (p : κ → Bool) (k : κ) :
    (t.filter fun e => p e.1).lookup k = if p k then t.lookup k else none := by
  induction t with
  | nil => simp
  | cons e t ih =>
      by_cases heq : k = e.1
      · subst heq
        cases hp : p e.1 with
        | true => rw [List.filter_cons, if_pos hp, if_pos rfl, List.lookup_cons_self, List.lookup_cons_self]
        | false => simpa [hp] using ih
      · rw [List.filter_cons, lookup_cons_ne e t heq]
        split
        · rw [lookup_cons_ne e _ heq, ih]
        · exact ih

end Lookup

/-! ## Passes -/

/-- Run a step on every entry, in order, with a resource that all of them share. -/
def visit (f : κ → α → σ → Checked (β × α × σ)) : List (κ × α) → σ → Checked (List (κ × β) × List (κ × α) × σ)
  | [], s => return ([], [], s)
  | e :: t, s => do
      let (b, a, s) ← f e.1 e.2 s
      let (bs, t, s) ← visit f t s
      return ((e.1, b) :: bs, (e.1, a) :: t, s)

variable {f : κ → α → σ → Checked (β × α × σ)} {s s' : σ} {bs : List (κ × β)}

theorem visit_cons_eq_ok {e : κ × α} (h : visit f (e :: t) s = .ok (bs, t', s')) :
    ∃ b a s₁ bs₁ t₁, f e.1 e.2 s = .ok (b, a, s₁) ∧ visit f t s₁ = .ok (bs₁, t₁, s') ∧
      bs = (e.1, b) :: bs₁ ∧ t' = (e.1, a) :: t₁ := by
  rw [visit, bind_eq_ok] at h
  obtain ⟨⟨b, a, s₁⟩, hstep, h⟩ := h
  rw [bind_eq_ok] at h
  obtain ⟨⟨bs₁, t₁, s₂⟩, hrest, h⟩ := h
  cases h
  exact ⟨b, a, s₁, bs₁, t₁, hstep, hrest, rfl, rfl⟩

theorem visit_keys (h : visit f t s = .ok (bs, t', s')) : t'.map Prod.fst = t.map Prod.fst := by
  induction t generalizing s bs t' with
  | nil =>
      cases h
      rfl
  | cons e t ih =>
      obtain ⟨b, a, s₁, bs₁, t₁, -, hrest, -, rfl⟩ := visit_cons_eq_ok h
      rw [List.map_cons, List.map_cons, ih hrest]

theorem visit_lookup [DecidableEq κ] (Inv : σ → Prop)
    (hstep : ∀ e ∈ t, ∀ s b a s', Inv s → f e.1 e.2 s = .ok (b, a, s') → Inv s')
    (hs : Inv s) (h : visit f t s = .ok (bs, t', s')) (k : κ) :
    (t.lookup k = none ∧ bs.lookup k = none ∧ t'.lookup k = none) ∨
      ∃ a s₀ b a' s₁, t.lookup k = some a ∧ Inv s₀ ∧ f k a s₀ = .ok (b, a', s₁) ∧ bs.lookup k = some b ∧
        t'.lookup k = some a' := by
  induction t generalizing s bs t' with
  | nil =>
      cases h
      exact .inl ⟨rfl, rfl, rfl⟩
  | cons e t ih =>
      obtain ⟨b, a, s₁, bs₁, t₁, hfirst, hrest, rfl, rfl⟩ := visit_cons_eq_ok h
      by_cases heq : k = e.1
      · subst heq
        exact .inr ⟨e.2, s, b, a, s₁, List.lookup_cons_self, hs, hfirst, List.lookup_cons_self, List.lookup_cons_self⟩
      · rw [lookup_cons_ne e t heq, lookup_cons_ne (e.1, b) bs₁ heq, lookup_cons_ne (e.1, a) t₁ heq]
        exact ih (fun e' he' => hstep e' (List.mem_cons_of_mem _ he'))
          (hstep e List.mem_cons_self s b a s₁ hs hfirst) hrest

theorem visit_invariant (Inv : σ → Prop) (hstep : ∀ e ∈ t, ∀ s b a s', Inv s → f e.1 e.2 s = .ok (b, a, s') → Inv s')
    (hs : Inv s) (h : visit f t s = .ok (bs, t', s')) : Inv s' := by
  induction t generalizing s bs t' with
  | nil =>
      cases h
      exact hs
  | cons e t ih =>
      obtain ⟨b, a, s₁, bs₁, t₁, hfirst, hrest, -, -⟩ := visit_cons_eq_ok h
      exact ih (fun e' he' => hstep e' (List.mem_cons_of_mem _ he'))
        (hstep e List.mem_cons_self s b a s₁ hs hfirst) hrest

theorem visit_forall {P Q : α → Prop} (hstep : ∀ k a s b a' s', P a → f k a s = .ok (b, a', s') → Q a')
    (ht : ∀ e ∈ t, P e.2) (h : visit f t s = .ok (bs, t', s')) : ∀ e ∈ t', Q e.2 := by
  induction t generalizing s bs t' with
  | nil =>
      cases h
      exact fun e he => absurd he List.not_mem_nil
  | cons e t ih =>
      obtain ⟨b, a, s₁, bs₁, t₁, hfirst, hrest, -, rfl⟩ := visit_cons_eq_ok h
      intro e' he'
      rcases List.mem_cons.mp he' with rfl | he'
      · exact hstep _ _ _ _ _ _ (ht e List.mem_cons_self) hfirst
      · exact ih (fun e'' he'' => ht e'' (List.mem_cons_of_mem _ he'')) hrest e' he'

end QuicFuscate.Framework
