import Mathlib.Data.List.Basic
import Thcdb.Interleaving.System

namespace Interleaving

variable {σ τ α β ε υ π : Type*}

def replay (apply : ε → υ → υ) (log : List ε) (x : υ) : υ := log.foldl (fun x e => apply e x) x

/-- What the last event to write some part of the state wrote there. -/
def lastWrite (writes : ε → Option π) (log : List ε) : Option π := (log.filterMap writes).getLast?

section
variable {apply : ε → υ → υ} {p : υ → π} {writes : ε → Option π} {log es : List ε} {x : υ}

@[simp] theorem replay_nil : replay apply [] x = x := rfl

@[simp] theorem replay_singleton {e : ε} : replay apply [e] x = apply e x := rfl

theorem replay_append : replay apply (log ++ es) x = replay apply es (replay apply log x) :=
  List.foldl_append

/-- A part that every event either writes or leaves alone is what was last written there. -/
theorem part_replay (h : ∀ e x, p (apply e x) = (writes e).getD (p x)) :
    p (replay apply log x) = (lastWrite writes log).getD (p x) := by
  induction log generalizing x with
  | nil => rfl
  | cons e log ih =>
    change p (replay apply log (apply e x)) = _
    rw [ih, h, lastWrite, lastWrite, List.filterMap_cons]
    cases writes e with
    | none => rfl
    | some y =>
      change _ = (List.getLast? (y :: log.filterMap writes)).getD (p x)
      rw [List.getLast?_cons, Option.getD_some, Option.getD_some]

theorem lastWrite_append :
    lastWrite writes (log ++ es) = (lastWrite writes es).or (lastWrite writes log) := by
  rw [lastWrite, List.filterMap_append, List.getLast?_append]
  rfl

theorem lastWrite_congr {writes' : ε → Option π} (h : ∀ e ∈ log, writes e = writes' e) :
    lastWrite writes log = lastWrite writes' log := by
  rw [lastWrite, lastWrite, List.filterMap_congr h]

theorem part_replay_of_forall (h : ∀ e x, p (apply e x) = p x) :
    p (replay apply log x) = p x := by
  induction log generalizing x with
  | nil => rfl
  | cons e log ih => exact (ih (x := apply e x)).trans (h e x)

end

/-- Where every step of a guarded run does what its events say, so does the whole run. -/
theorem System.run_replays {M : System σ τ α β ε} {I : Config σ τ ε → Prop}
    {G : Config σ τ ε → Act α β → Prop} {v : σ → Option υ} {apply : ε → υ → υ}
    (step : ∀ c a d, I c → G c a → M.next c a = some d → I d ∧ ∃ es, d.log = c.log ++ es ∧
      v d.shared = (v c.shared).map (replay apply es))
    {c d : Config σ τ ε} {as : List (Act α β)} (h0 : I c) (hlog : c.log = [])
    (hg : M.Meets G c as) (hr : M.run c as = some d) :
    v d.shared = (v c.shared).map (replay apply d.log) := by
  have h := run_induction
    (I := fun x => I x ∧ v x.shared = (v c.shared).map (replay apply x.log)) ?_ ?_ hg hr
  · exact h.2
  · rintro x a y ⟨hx, hview⟩ hga hn
    obtain ⟨hy, es, hes, hstep⟩ := step x a y hx hga hn
    refine ⟨hy, ?_⟩
    rw [hstep, hview, hes, Option.map_map]
    congr 1
    funext z
    exact replay_append.symm
  · refine ⟨h0, ?_⟩
    rw [hlog, show replay apply [] = id from rfl, Option.map_id, id]

end Interleaving
