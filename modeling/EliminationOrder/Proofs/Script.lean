/-
Two lists of requests at once.

`EndTogether` relates two requests that end in the same way: with one answer and states
that are related, or with one failure.  If every request does so from related states, then
lists of requests give the same answers, request by request.

The second list may be longer.  `ι ⊕ κ` marks the requests that were put in between, and
if none of those breaks the relation, what the others give is what they gave without them
(`ownResults_trace`), and so is what is left at the end (`related_final`).
-/
import EliminationOrder.Script
import Mathlib.Data.List.Basic

namespace EliminationOrder.Script

variable {σ τ ι κ α β γ : Type}

/-- Two requests end with one answer and related states, or with one failure. -/
inductive EndTogether (related : σ → σ → Prop) : Outcome (β × σ) → Outcome (β × σ) → Prop
  | ok (b : β) {s t : σ} (h : related s t) : EndTogether related (.ok (b, s)) (.ok (b, t))
  | error (e : Failure) : EndTogether related (.error e) (.error e)

namespace EndTogether

variable {related : σ → σ → Prop} {related' : τ → τ → Prop} {s t : σ}

theorem bind {x y : Outcome (α × σ)} {f f' : α × σ → Outcome (β × τ)}
    (hxy : EndTogether related x y)
    (hf : ∀ a s t, related s t → EndTogether related' (f (a, s)) (f' (a, t))) :
    EndTogether related' (x >>= f) (y >>= f') := by
  cases hxy with
  | ok a h => exact hf a _ _ h
  | error e => exact EndTogether.error e

/-- What both do first alike can be left out. -/
theorem bind_left (x : Outcome α) {f f' : α → Outcome (β × σ)}
    (hf : ∀ a, EndTogether related (f a) (f' a)) : EndTogether related (x >>= f) (x >>= f') := by
  cases x with
  | ok a => exact hf a
  | error e => exact EndTogether.error e

/-- Requests that only look, and see the same, leave both states as they are. -/
theorem look (h : related s t) {x y : Outcome α} (hxy : x = y) (answer : α → β) :
    EndTogether related (x >>= fun a => pure (answer a, s)) (y >>= fun a => pure (answer a, t)) := by
  rw [hxy]
  exact bind_left y fun a => EndTogether.ok (answer a) h

/-- What such requests leave is related, whether they answered or not. -/
theorem settle {x y : Outcome (β × σ)} (hxy : EndTogether related x y) (h : related s t) :
    (settle s x).1 = (settle t y).1 ∧ related (settle s x).2 (settle t y).2 := by
  cases hxy with
  | ok b h' => exact ⟨rfl, h'⟩
  | error e => exact ⟨rfl, h⟩

end EndTogether

/-- A request that only looks leaves the state as it is, whether it is answered or not. -/
theorem settle_look (s : σ) (x : Outcome α) (answer : α → β) :
    (settle s (x >>= fun a => pure (answer a, s))).2 = s := by
  cases x with
  | error e => rfl
  | ok a => rfl

/-! ### Requests put in between -/

/-- The state after all requests of a list. -/
def final (step : σ → ι → Outcome (β × σ)) : σ → List ι → σ
  | s, [] => s
  | s, r :: rs => final step (settle s (step s r)).2 rs

theorem final_append (step : σ → ι → Outcome (β × σ)) (rs rs' : List ι) :
    ∀ s : σ, final step s (rs ++ rs') = final step (final step s rs) rs' := by
  induction rs with
  | nil => exact fun _ => rfl
  | cons r rs ih => exact fun s => ih (settle s (step s r)).2

/-- The requests of a script without those put in between. -/
def own (script : List (ι ⊕ κ)) : List ι :=
  script.filterMap Sum.getLeft?

/-- All requests of a script; `put` says what the ones in between are. -/
def all (put : κ → ι) (script : List (ι ⊕ κ)) : List ι :=
  script.map (Sum.elim id put)

/-- Of a list of results, one for each request of a script, those of its own requests. -/
def ownResults : List (ι ⊕ κ) → List γ → List γ
  | .inl _ :: script, result :: results => result :: ownResults script results
  | .inr _ :: script, _ :: results => ownResults script results
  | _, _ => []

theorem ownResults_map {δ : Type} (f : γ → δ) (script : List (ι ⊕ κ)) :
    ∀ (results : List γ), ownResults script (results.map f) = (ownResults script results).map f := by
  induction script with
  | nil =>
      intro results
      rfl
  | cons r script ih =>
      intro results
      cases results with
      | nil => cases r <;> rfl
      | cons result results =>
          cases r with
          | inl r =>
              show f result :: ownResults script (results.map f) = _
              rw [ih results]
              rfl
          | inr k => exact ih results

section Simulation

variable {step : σ → ι → Outcome (β × σ)} {related : σ → σ → Prop} {put : κ → ι} {see : σ → γ}
  (hstep : ∀ s t r, related s t → EndTogether related (step s r) (step t r))
  (hput : ∀ s t k, related s t → related s (settle t (step t (put k))).2)

include hstep hput

/--
**Requests that keep the relation can be put in between.**  The requests of the list itself
give what they gave without them, and leave states that look the same.
-/
theorem ownResults_trace (hsee : ∀ s t, related s t → see s = see t) (script : List (ι ⊕ κ)) :
    ∀ {s t : σ}, related s t →
      (ownResults script (trace step t (all put script))).map (Prod.map id see)
        = (trace step s (own script)).map (Prod.map id see) := by
  induction script with
  | nil =>
      intro s t _
      rfl
  | cons r script ih =>
      intro s t h
      cases r with
      | inl r =>
          obtain ⟨hanswer, hrest⟩ := (hstep s t r h).settle h
          have hfirst : Prod.map id see (settle t (step t r)) = Prod.map id see (settle s (step s r)) :=
            Prod.ext hanswer.symm (hsee _ _ hrest).symm
          show Prod.map id see (settle t (step t r)) :: _ = Prod.map id see (settle s (step s r)) :: _
          rw [hfirst]
          exact congrArg _ (ih hrest)
      | inr k => exact ih (hput s t k h)

/-- What is left at the end is related too. -/
theorem related_final (script : List (ι ⊕ κ)) :
    ∀ {s t : σ}, related s t → related (final step s (own script)) (final step t (all put script)) := by
  induction script with
  | nil =>
      intro s t h
      exact h
  | cons r script ih =>
      intro s t h
      cases r with
      | inl r => exact ih ((hstep s t r h).settle h).2
      | inr k => exact ih (hput s t k h)

end Simulation

end EliminationOrder.Script
