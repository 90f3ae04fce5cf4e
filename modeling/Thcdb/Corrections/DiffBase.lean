import Mathlib.Data.Prod.Lex
import Mathlib.Order.WithBot
import Thcdb.Corrections.Publication

namespace Thcdb.Corrections
open Auth

variable {D V C : Type}

inductive ApiError
  | notFound (message : String)
  | infra
  deriving DecidableEq, Repr

structure Snapshots (D V C : Type) where
  empty : V
  ofHistory : History D → V
  diffSnapshots : V → V → List C

def snapshotForHistory (S : Snapshots D V C) (w : World D) (entityType : EntityType)
    (historyId : HistoryId) : Except ApiError V :=
  match findHistory w.histories entityType historyId with
  | none => .error .infra
  | some history => .ok (S.ofHistory history)

section SortKey

variable {r s : Correction}

end SortKey

section Base

variable {S : Snapshots D V C} {w : World D} {live : List Publication} {r s : Correction}

theorem findById_of_mem (hw : w.Wf) (hr : r ∈ w.corrections) :
    findById w.corrections r.id = some r := by
  cases hf : findById w.corrections r.id with
  | none =>
    have hnone := List.find?_eq_none.mp hf r hr
    simp at hnone
  | some s =>
    have hmem : s ∈ w.corrections := List.mem_of_find?_eq_some hf
    rw [hw.eq_of_id hmem hr (findById_id hf)]

namespace Archive

variable (h : Archive w live)
include h

end Archive

end Base

def after (w : World String) (live : List Publication) (rs : List (Request String)) :
    World String × List Publication := (runPublishing w live rs).getD (w, live)

theorem run_after (w : World String) (live : List Publication) (rs : List (Request String))
    (h : (runPublishing w live rs).isSome) :
    runPublishing w live rs = some ((after w live rs).1, (after w live rs).2) := by
  obtain ⟨x, hx⟩ := Option.isSome_iff_exists.mp h
  simp [after, hx]

end Thcdb.Corrections
