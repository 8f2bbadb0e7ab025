import Mathlib.Data.List.Range

/-! Machines whose steps emit events and specifications that take events. A specification need
not be deterministic, and a step that emits nothing is one that the specification does not
notice. -/

namespace Basis
variable {σ τ α ε : Type*}

def emitted (step : σ → α → σ) (emit : σ → α → List ε) : σ → List α → List ε
  | _, [] => []
  | s, a :: as => emit s a ++ emitted step emit (step s a) as

def Along (step : σ → α → σ) (P : σ → α → Prop) : σ → List α → Prop
  | _, [] => True
  | s, a :: as => P s a ∧ Along step P (step s a) as

/-- The specification can go from the one state to the other by taking these events. -/
def Takes (next : τ → ε → τ → Prop) : τ → List ε → τ → Prop
  | t, [], t' => t = t'
  | t, e :: es, t' => ∃ u, next t e u ∧ Takes next u es t'

section Along
variable {step : σ → α → σ} {P Q : σ → α → Prop}

theorem along_of_forall_mem {s : σ} {as : List α} (h : ∀ a ∈ as, ∀ s, P s a) : Along step P s as := by
  induction as generalizing s with
  | nil => trivial
  | cons a as ih => exact ⟨h a List.mem_cons_self s, ih fun b hb => h b (List.mem_cons_of_mem a hb)⟩

theorem Along.emitted_filter {emit : σ → α → List ε} {fresh : σ → α → Bool} {keep : Bool → ε → Bool}
    (hkeep : ∀ e, keep true e = true) {s : σ} {as : List α} (h : Along step (fun s a => fresh s a = true) s as) :
    emitted step (fun s a => (emit s a).filter (keep (fresh s a))) s as = emitted step emit s as := by
  induction as generalizing s with
  | nil => rfl
  | cons a as ih => rw [emitted, emitted, h.1, List.filter_eq_self.mpr fun e _ => hkeep e, ih h.2]

theorem Along.keeps {emit : σ → α → List ε} {I : σ → List ε → Prop}
    (hstep : ∀ s t a, I s t → P s a → I (step s a) (t ++ emit s a)) {s : σ} {t : List ε} {as : List α} (hs : I s t)
    (h : Along step P s as) : I (as.foldl step s) (t ++ emitted step emit s as) := by
  induction as generalizing s t with
  | nil => rwa [emitted, List.append_nil]
  | cons a as ih =>
    rw [emitted, ← List.append_assoc]
    exact ih (hstep s t a hs h.1) h.2

end Along

section Takes
variable {next : τ → ε → τ → Prop}

theorem takes_singleton {t t' : τ} {e : ε} (h : next t e t') : Takes next t [e] t' := ⟨t', h, rfl⟩

theorem Takes.append {t u t' : τ} {es fs : List ε} (h : Takes next t es u) (h' : Takes next u fs t') :
    Takes next t (es ++ fs) t' := by
  induction es generalizing t with
  | nil => exact (show t = u from h) ▸ h'
  | cons e es ih =>
    obtain ⟨v, hnext, hrest⟩ := h
    exact ⟨v, hnext, ih hrest⟩

/-- A specification that is refined event by event, but for events that leave it alone, is
refined by the histories without these events. -/
theorem Takes.map_filter {τ' : Type*} {next' : τ' → ε → τ' → Prop} (f : τ → τ') (keep : ε → Bool) {I : τ → Prop}
    (hnext : ∀ t e t', I t → next t e t' → I t' ∧ if keep e then next' (f t) e (f t') else f t' = f t) {t t' : τ}
    {es : List ε} (ht : I t) (h : Takes next t es t') : I t' ∧ Takes next' (f t) (es.filter keep) (f t') := by
  induction es generalizing t with
  | nil =>
    obtain rfl : t = t' := h
    exact ⟨ht, rfl⟩
  | cons e es ih =>
    obtain ⟨u, hu, hrest⟩ := h
    obtain ⟨hI, hkeep⟩ := hnext t e u ht hu
    obtain ⟨hI', htakes⟩ := ih hI hrest
    refine ⟨hI', ?_⟩
    cases hk : keep e with
    | true =>
      rw [hk, if_pos rfl] at hkeep
      rw [List.filter_cons_of_pos hk]
      exact ⟨f u, hkeep, htakes⟩
    | false =>
      rw [hk, if_neg Bool.false_ne_true] at hkeep
      rw [List.filter_cons_of_neg (by simp [hk]), ← hkeep]
      exact htakes

theorem Along.simulates {step : σ → α → σ} {emit : σ → α → List ε} {P : σ → α → Prop} {R : σ → τ → Prop}
    (hstep : ∀ s t a, R s t → P s a → ∃ t', Takes next t (emit s a) t' ∧ R (step s a) t') {s : σ} {t : τ}
    {as : List α} (hR : R s t) (h : Along step P s as) :
    ∃ t', Takes next t (emitted step emit s as) t' ∧ R (as.foldl step s) t' := by
  induction as generalizing s t with
  | nil => exact ⟨t, rfl, hR⟩
  | cons a as ih =>
    obtain ⟨u, htakes, hu⟩ := hstep s t a hR h.1
    obtain ⟨t', hrest, ht'⟩ := ih hu h.2
    exact ⟨t', htakes.append hrest, ht'⟩

/-- The same where a step may leave events that the refined specification takes only some of:
what is kept depends on a `mode` of the step. -/
theorem Along.simulates_filter {τ' μ : Type*} (next : μ → τ → ε → τ → Prop) {next' : τ' → ε → τ' → Prop}
    (f : τ → τ') (keep : μ → ε → Bool) {I : τ → Prop}
    (hnext : ∀ m t e t', I t → next m t e t' → I t' ∧ if keep m e then next' (f t) e (f t') else f t' = f t)
    {step : σ → α → σ} {emit : σ → α → List ε} {mode : σ → α → μ} {P : σ → α → Prop} {R : σ → τ → Prop}
    (hstep : ∀ s t a, R s t → P s a → ∃ t', Takes (next (mode s a)) t (emit s a) t' ∧ R (step s a) t') {s : σ} {t : τ}
    {as : List α} (hR : R s t) (ht : I t) (h : Along step P s as) :
    ∃ t', Takes next' (f t) (emitted step (fun s a => (emit s a).filter (keep (mode s a))) s as) (f t') ∧
      R (as.foldl step s) t' := by
  induction as generalizing s t with
  | nil => exact ⟨t, rfl, hR⟩
  | cons a as ih =>
    obtain ⟨u, htakes, hu⟩ := hstep s t a hR h.1
    obtain ⟨hI, hkept⟩ := htakes.map_filter f (keep (mode s a)) (hnext (mode s a)) ht
    obtain ⟨t', hrest, ht'⟩ := ih hu hI h.2
    exact ⟨t', hkept.append hrest, ht'⟩

end Takes
end Basis
