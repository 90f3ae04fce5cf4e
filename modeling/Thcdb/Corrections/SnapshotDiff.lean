import Thcdb.Json.Value

namespace Thcdb.Corrections
open Json

structure CorrectionDiffEntry where
  path : String
  before : Option String
  after : Option String
  deriving DecidableEq, Repr

def formatPath (path : String) : String := if path.isEmpty then "$" else path

section

-- how a value other than a string is printed
variable (pretty : Value → String)

def valueToString : Value → String
  | .str val => val
  | value => pretty value

def diffKeys (before after : Fields) : List String :=
  (before.keys ++ after.keys).dedup.mergeSort (· ≤ ·)

def joinPath (path key : String) : String := if path.isEmpty then key else s!"{path}.{key}"

def diffEntry (path : String) (before after : Option Value) : CorrectionDiffEntry :=
  ⟨formatPath path, before.map (valueToString pretty), after.map (valueToString pretty)⟩

/-- Objects are walked through key by key, everything else is compared as a whole. -/
def diffWalk (path : String) (before after : Option Value) : List CorrectionDiffEntry :=
  match before, after with
  | some (.obj b), some (.obj a) =>
    (diffKeys b a).flatMap fun key => diffWalk (joinPath path key) (Fields.get key b) (Fields.get key a)
  | some b, some a => if b ≠ a then [diffEntry pretty path (some b) (some a)] else []
  | some b, none => [diffEntry pretty path (some b) none]
  | none, some a => [diffEntry pretty path none (some a)]
  | none, none => []
termination_by before
decreasing_by
  cases hget : Fields.get key b with
  | none => simp
  | some v =>
    have hlt := List.sizeOf_lt_of_mem (Fields.mem_of_get hget)
    simp at hlt ⊢
    omega

def diffSnapshots (before after : Value) : List CorrectionDiffEntry :=
  diffWalk pretty "" (some before) (some after)

variable {pretty} {m m' : Fields} {k : String}

theorem mem_diffKeys : k ∈ diffKeys m m' ↔ k ∈ m.keys ∨ k ∈ m'.keys := by
  simp [diffKeys]

/-- Nothing is listed exactly if nothing differs. -/
theorem diffWalk_eq_nil {path : String} {before after : Option Value}
    (hb : ∀ v ∈ before, Canonical v) (ha : ∀ v ∈ after, Canonical v) :
    diffWalk pretty path before after = [] ↔ before = after := by
  fun_induction diffWalk pretty path before after with
  | case1 path b a ih =>
    obtain ⟨hbm, hbv⟩ := (hb _ rfl).map
    obtain ⟨ham, hav⟩ := (ha _ rfl).map
    rw [List.flatMap_eq_nil_iff]
    -- keys that are in neither map are not walked, and differ in nothing
    have hkeys : (∀ k ∈ diffKeys b a, diffWalk pretty (joinPath path k) (Fields.get k b)
        (Fields.get k a) = []) ↔ ∀ k, Fields.get k b = Fields.get k a := by
      constructor
      · intro h k
        by_cases hk : k ∈ diffKeys b a
        · exact (ih k (fun v hv => hbv _ (Fields.mem_of_get hv))
            fun v hv => hav _ (Fields.mem_of_get hv)).mp (h k hk)
        · rw [mem_diffKeys, not_or] at hk
          rw [Fields.get_eq_none hk.1, Fields.get_eq_none hk.2]
      · intro h k _
        exact (ih k (fun v hv => hbv _ (Fields.mem_of_get hv))
          fun v hv => hav _ (Fields.mem_of_get hv)).mpr (h k)
    rw [hkeys]
    constructor
    · intro h
      rw [hbm.ext ham h]
    · intro h k
      rw [Value.obj.inj (Option.some.inj h)]
  | case2 => simp_all
  | case3 => simp_all
  | case4 => simp
  | case5 => simp
  | case6 => simp

/-- The difference hides nothing and invents nothing. -/
theorem diffSnapshots_eq_nil {before after : Value} (hb : Canonical before)
    (ha : Canonical after) : diffSnapshots pretty before after = [] ↔ before = after := by
  unfold diffSnapshots
  rw [diffWalk_eq_nil (by simpa using hb) (by simpa using ha), Option.some.injEq]

end

end Thcdb.Corrections
