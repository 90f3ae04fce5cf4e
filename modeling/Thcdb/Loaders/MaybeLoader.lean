import Mathlib.Data.List.Dedup
import Mathlib.Data.List.Forall2
import Thcdb.Relational.Lookup

namespace Thcdb.MaybeLoader
open Relational

inductive Identity (Col : Type)
  | Unary (a : Col)
  | Binary (a b : Col)
  | Ternary (a b c : Col)
  | Many (cols : List Col)
  deriving DecidableEq, Repr

inductive ValueTuple (V : Type)
  | One (a : V)
  | Two (a b : V)
  | Three (a b c : V)
  | Many (values : List V)
  deriving DecidableEq, Repr

def ValueTuple.toList {V : Type} : ValueTuple V → List V
  | .One a => [a]
  | .Two a b => [a, b]
  | .Three a b c => [a, b, c]
  | .Many values => values

inductive RelationType
  | HasOne | HasMany
  deriving DecidableEq, Repr

structure RelationDef (From To : Type) where
  relType : RelationType
  fromCol : Identity From
  toCol : Identity To

/-- How an entity is related to another one; `via` tells of a table between them. -/
structure Related (From To : Type) where
  via : Bool
  toDef : RelationDef From To

section Keys
variable {Col V : Type} [DecidableEq V]

/-- A value is `none` where it is `NULL`. -/
def extractKey (targetCol : Identity Col) (get : Col → Option V) : ValueTuple (Option V) :=
  match targetCol with
  | .Unary a => .One (get a)
  | .Binary a b => .Two (get a) (get b)
  | .Ternary a b c => .Three (get a) (get b) (get c)
  | .Many cols => .Many (cols.map get)

def prepareCondition (col : Identity Col) (keys : List (ValueTuple (Option V)))
    (get : Col → Option V) : Bool :=
  let keys := keys.dedup
  match col with
  | .Unary a => (keys.flatMap ValueTuple.toList).any fun v => tupleEq [get a] [v]
  | .Binary a b => keys.any fun key => tupleEq [get a, get b] key.toList
  | .Ternary a b c => keys.any fun key => tupleEq [get a, get b, get c] key.toList
  | .Many cols => keys.any fun key => tupleEq (cols.map get) key.toList

end Keys

/-- A statement: the rows it selects, and how the database returns those of them that meet a
further condition. -/
structure Select (R : Type) where
  rows : List R
  all : (R → Bool) → List R
  perm : ∀ condition, (all condition).Perm (rows.filter condition)

section Loader
variable {M R From To V : Type} [DecidableEq V]

/-- `Vec<Option<M>>::maybe_load_one`, with `ModelTrait::get` of the two models. -/
def maybeLoadOne (related : Related From To) (get : M → From → Option V)
    (getRelated : R → To → Option V) (models : List (Option M)) (stmt : Select R) :
    Except String (List (Option R)) :=
  if related.via then .error "Relation is ManytoMany instead of HasOne"
  else
    let relDef := related.toDef
    if relDef.relType = .HasMany then .error "Relation is HasMany instead of HasOne"
    else if models.isEmpty then .ok []
    else
      let keys := models.map fun model =>
        model.map fun model => extractKey relDef.fromCol (get model)
      let someKeys := keys.filterMap id
      let data := stmt.all fun r => prepareCondition relDef.toCol someKeys (getRelated r)
      let hashmap := indexBy (fun value => extractKey relDef.toCol (getRelated value)) data
      .ok (keys.filterMap fun key => key.map hashmap)

end Loader

section Claim
variable {M R From To V : Type} [DecidableEq V]

def Identity.SameShape : Identity From → Identity To → Prop
  | .Unary _, .Unary _ => True
  | .Binary _ _, .Binary _ _ => True
  | .Ternary _ _ _, .Ternary _ _ _ => True
  | .Many cols, .Many cols' => cols.length = cols'.length
  | _, _ => False

/-- A relation to one row, and a statement on the rows of the other entity, whose keys tell them
apart. -/
structure HasOne (M R From To V : Type) [DecidableEq V] where
  related : Related From To
  get : M → From → Option V
  getRelated : R → To → Option V
  stmt : Select R
  direct : related.via = false
  relType : related.toDef.relType = .HasOne
  shape : related.toDef.fromCol.SameShape related.toDef.toCol
  unique : ∀ r ∈ stmt.rows, ∀ s ∈ stmt.rows,
    none ∉ (extractKey related.toDef.toCol (getRelated r)).toList →
      extractKey related.toDef.toCol (getRelated r) =
        extractKey related.toDef.toCol (getRelated s) → r = s

namespace HasOne
variable (L : HasOne M R From To V)

def key (m : M) : ValueTuple (Option V) := extractKey L.related.toDef.fromCol (L.get m)

def relatedKey (r : R) : ValueTuple (Option V) := extractKey L.related.toDef.toCol (L.getRelated r)

def Relates (m : M) (r : R) : Prop := tupleEq (L.relatedKey r).toList (L.key m).toList

def load (models : List (Option M)) : Except String (List (Option R)) :=
  maybeLoadOne L.related L.get L.getRelated models L.stmt

/-- Every model that there is has its related row in its own place, if it has one. -/
def KeepsPositions (models : List (Option M)) (result : List (Option R)) : Prop :=
  List.Forall₂ (fun model row => ∀ r, row = some r ↔
    ∃ m, model = some m ∧ r ∈ L.stmt.rows ∧ L.Relates m r) models result

end HasOne

end Claim

section Keys
variable {M R From To V : Type} [DecidableEq V] {L : HasOne M R From To V} {m : M} {r : R}

/-- Keys of the same shape are as different as their values. -/
theorem toList_inj : (L.relatedKey r).toList = (L.key m).toList ↔ L.relatedKey r = L.key m := by
  have hshape := L.shape
  unfold HasOne.relatedKey HasOne.key
  cases hfrom : L.related.toDef.fromCol <;> cases hto : L.related.toDef.toCol <;>
    simp_all [Identity.SameShape, extractKey, ValueTuple.toList]

theorem relates_iff :
    L.Relates m r ↔ L.relatedKey r = L.key m ∧ none ∉ (L.relatedKey r).toList := by
  rw [HasOne.Relates, tupleEq_iff, toList_inj]

/-- The condition asks for the rows that some model is related to. -/
theorem prepareCondition_iff {models : List M} :
    prepareCondition L.related.toDef.toCol (models.map L.key) (L.getRelated r) ↔
      ∃ m ∈ models, L.Relates m r := by
  have hany : ∀ values : List (Option V),
      ((models.map L.key).dedup.any fun key => tupleEq values key.toList) ↔
        ∃ m ∈ models, tupleEq values (L.key m).toList := by
    intro values
    simp [List.any_eq_true]
  have hshape := L.shape
  unfold HasOne.Relates HasOne.relatedKey
  cases hto : L.related.toDef.toCol with
  | Unary a =>
    cases hfrom : L.related.toDef.fromCol with
    | Unary b =>
      have hkey : ∀ m, (L.key m).toList = [L.get m b] := by
        intro m
        rw [HasOne.key, hfrom]
        rfl
      have hrow : (extractKey (.Unary a) (L.getRelated r)).toList = [L.getRelated r a] := rfl
      simp [prepareCondition, List.any_eq_true, hkey, hrow]
    | _ =>
      rw [hto, hfrom] at hshape
      exact absurd hshape id
  | Binary a b => exact hany _
  | Ternary a b c => exact hany _
  | Many cols => exact hany _

section Result
variable {models : List (Option M)}

def found (L : HasOne M R From To V) (models : List (Option M)) :
    ValueTuple (Option V) → Option R :=
  indexBy L.relatedKey (L.stmt.all fun r =>
    prepareCondition L.related.toDef.toCol ((models.filterMap id).map L.key) (L.getRelated r))

theorem found_eq_some_iff (hm : some m ∈ models) : found L models (L.key m) = some r ↔
    r ∈ L.stmt.rows ∧ L.Relates m r := by
  have hmem : ∀ s, s ∈ L.stmt.all (fun r => prepareCondition L.related.toDef.toCol
      ((models.filterMap id).map L.key) (L.getRelated r)) ↔
        s ∈ L.stmt.rows ∧ ∃ m ∈ models.filterMap id, L.Relates m s := by
    intro s
    rw [(L.stmt.perm _).mem_iff, List.mem_filter, prepareCondition_iff]
  have hinj : ∀ r ∈ L.stmt.all (fun r => prepareCondition L.related.toDef.toCol
      ((models.filterMap id).map L.key) (L.getRelated r)), ∀ s ∈ L.stmt.all (fun r =>
        prepareCondition L.related.toDef.toCol ((models.filterMap id).map L.key) (L.getRelated r)),
      L.relatedKey r = L.relatedKey s → r = s := by
    intro r hr s hs heq
    obtain ⟨hrow, m, -, hrelates⟩ := (hmem r).mp hr
    exact L.unique r hrow s ((hmem s).mp hs).1 (relates_iff.mp hrelates).2 heq
  rw [found, indexBy_eq_some_iff hinj, hmem]
  constructor
  · rintro ⟨⟨hrow, m', -, hrelates⟩, hkey⟩
    exact ⟨hrow, relates_iff.mpr ⟨hkey, (relates_iff.mp hrelates).2⟩⟩
  · rintro ⟨hrow, hrelates⟩
    have hgiven : m ∈ models.filterMap id := List.mem_filterMap.mpr ⟨some m, hm, rfl⟩
    exact ⟨⟨hrow, m, hgiven, hrelates⟩, (relates_iff.mp hrelates).1⟩

/-- The result has the rows of the models that there are, one behind the other. -/
theorem load_eq : L.load models =
    .ok ((models.filterMap id).map fun m => found L models (L.key m)) := by
  have hkeys : (models.map fun model => model.map L.key).filterMap id =
      (models.filterMap id).map L.key := by
    rw [List.filterMap_map, List.map_filterMap]
    rfl
  have hresult : ((models.map fun model => model.map L.key).filterMap fun key =>
      key.map (found L models)) = (models.filterMap id).map fun m => found L models (L.key m) := by
    rw [List.filterMap_map, List.map_filterMap]
    refine List.filterMap_congr fun model _ => ?_
    cases model <;> rfl
  have htype : ¬L.related.toDef.relType = .HasMany := by
    rw [L.relType]
    exact fun h => RelationType.noConfusion h
  cases models with
  | nil => simp [HasOne.load, maybeLoadOne, L.direct, htype]
  | cons model models =>
    rw [← hresult, found, ← hkeys]
    simp only [HasOne.load, maybeLoadOne, L.direct, htype, List.isEmpty_cons, if_neg,
      Bool.false_eq_true, not_false_eq_true]
    rfl

theorem exists_given (h : ∀ model ∈ models, model.isSome) :
    ∃ given : List M, models = given.map some := by
  induction models with
  | nil => exact ⟨[], rfl⟩
  | cons model models ih =>
    obtain ⟨hmodel, hmodels⟩ := List.forall_mem_cons.mp h
    obtain ⟨m, rfl⟩ := Option.isSome_iff_exists.mp hmodel
    obtain ⟨given, rfl⟩ := ih hmodels
    exact ⟨m :: given, rfl⟩

end Result

end Keys

/-- Each model has its row in its own place exactly if none of the models is missing. -/
theorem keeps_positions_iff {M R From To V : Type} [DecidableEq V] (L : HasOne M R From To V)
    (models : List (Option M)) :
    (∃ result, L.load models = .ok result ∧ L.KeepsPositions models result) ↔
      ∀ model ∈ models, model.isSome := by
  rw [load_eq]
  constructor
  · rintro ⟨result, hresult, hkeeps⟩
    have hlength := hkeeps.length_eq
    rw [← Except.ok.inj hresult, List.length_map] at hlength
    exact List.filterMap_length_eq_length.mp hlength.symm
  · intro hall
    obtain ⟨models, rfl⟩ := exists_given hall
    refine ⟨_, rfl, ?_⟩
    have hgiven : (models.map some).filterMap id = models := by simp
    rw [hgiven, HasOne.KeepsPositions, List.forall₂_map_left_iff, List.forall₂_map_right_iff]
    refine List.forall₂_same.mpr fun m hm r => ?_
    rw [found_eq_some_iff (List.mem_map_of_mem hm)]
    simp

section Example

def twoRows : HasOne (Option ℕ) ℕ Unit Unit ℕ where
  related := ⟨false, ⟨.HasOne, .Unary (), .Unary ()⟩⟩
  get m _ := m
  getRelated r _ := some r
  stmt := ⟨[1, 2], fun condition => [1, 2].filter condition, fun _ => List.Perm.refl _⟩
  direct := rfl
  relType := rfl
  shape := trivial
  unique r _ s _ _ h := by
    unfold extractKey at h
    simpa using h

/-- Behind a missing model every row moves up. -/
theorem missing_model_dropped : twoRows.load [none, some (some 1)] = .ok [some 1] ∧
    ¬∃ result, twoRows.load [none, some (some 1)] = .ok result ∧
      twoRows.KeepsPositions [none, some (some 1)] result := by
  have hload : twoRows.load [none, some (some 1)] = .ok [some 1] := by decide
  refine ⟨hload, ?_⟩
  rintro ⟨result, hresult, hkeeps⟩
  rw [hload] at hresult
  rw [← Except.ok.inj hresult] at hkeeps
  exact absurd hkeeps.length_eq (by decide)

end Example

end Thcdb.MaybeLoader
