import Thcdb.Objects.Copy

namespace Thcdb.Frontend.DeepMerge

open Objects

inductive Primitive where
  | boolean (b : Bool)
  /-- a double, by its bits -/
  | number (bits : UInt64)
  | bigint (n : ℤ)
  | string (s : String)
  | symbol (id : ℕ)
  deriving DecidableEq

/-- The values without properties of their own that are kept on the heap. A built-in is a function
or another object of the language, such as those that prototypes hold. -/
inductive Leaf where
  | undefined
  | null
  | primitive (p : Primitive)
  | builtin (id : ℕ)
  deriving DecidableEq

def Leaf.isNullish : Leaf → Bool
  | .undefined => true
  | .null => true
  | _ => false

/-- What `structuredClone` clones. -/
def Leaf.isCloneable : Leaf → Bool
  | .primitive (.symbol _) => false
  | .builtin _ => false
  | _ => true

abbrev Val := Value Leaf

def isNullish : Val → Bool
  | .leaf a => a.isNullish
  | .ref _ => false

inductive Failure where
  | typeError
  | rangeError
  | dataCloneError
  /-- a built-in is written to, and what follows is no longer a matter of the heap -/
  | builtin
  /-- the recursion has not ended yet -/
  | fuel
  deriving DecidableEq

section

-- the keys of properties; `__proto__` is none of them
variable {κ : Type} [DecidableEq κ]

/-- What the language adds to the own properties: the prototypes of objects and arrays, the
properties of primitives and built-ins, and which properties of an array a write to it overwrites
or, with `none`, deletes (the length follows the indices, and the indices follow the length). -/
structure Realm (κ : Type) where
  object : κ → Leaf
  array : κ → Leaf
  leaf : Leaf → κ → Leaf
  arraySet : Heap κ Leaf → ℕ → κ → Val → Except Failure (κ → Option (Option Leaf))

variable (R : Realm κ)

/-- `target[key]` -/
def get (h : Heap κ Leaf) (target : Val) (key : κ) : Except Failure Val :=
  match target with
  | .ref l =>
    match h.own l key with
    | some v => .ok v
    | none => .ok (.leaf (if h.isArray l then R.array key else R.object key))
  | .leaf a => if a.isNullish then .error .typeError else .ok (.leaf (R.leaf a key))

/-- The properties of an array after a write and what follows from it. -/
def arrayOwn (o : Obj κ Leaf) (effect : κ → Option (Option Leaf)) (key : κ) : Option (Value Leaf) :=
  match effect key with
  | some a => if key ∈ o.keys then a.map .leaf else none
  | none => o.own key

theorem arrayOwn_keys (o : Obj κ Leaf) (effect : κ → Option (Option Leaf)) (key : κ) :
    key ∈ o.keys.filter (fun k => (arrayOwn o effect k).isSome) ↔
      (arrayOwn o effect key).isSome = true := by
  rw [List.mem_filter, and_iff_right_iff_imp]
  intro h
  unfold arrayOwn at h
  split at h
  · split_ifs at h with hk
    · exact hk
    · cases h
  · exact (o.mem_keys key).mpr h

def arrayPut (o : Obj κ Leaf) (key : κ) (v : Val) (effect : κ → Option (Option Leaf)) :
    Obj κ Leaf where
  isArray := o.isArray
  keys := (o.set key v).keys.filter fun k => (arrayOwn (o.set key v) effect k).isSome
  own := arrayOwn (o.set key v) effect
  nodup := (o.set key v).nodup.filter _
  mem_keys := arrayOwn_keys (o.set key v) effect

/-- `target[key] = v` -/
def set (h : Heap κ Leaf) (target : Val) (key : κ) (v : Val) : Except Failure (Heap κ Leaf) :=
  match target with
  | .ref l =>
    if h.isArray l then do
      let effect ← R.arraySet h l key v
      .ok (h.write l (arrayPut (h.obj l) key v effect))
    else .ok (h.put l key v)
  | .leaf (.builtin _) => .error .builtin
  | .leaf _ => .error .typeError

/-- `target[key] ??= {}` -/
def setDefault (h : Heap κ Leaf) (target : Val) (key : κ) : Except Failure (Heap κ Leaf) := do
  let old ← get R h target key
  if isNullish old then set R h.alloc target key (.ref h.size) else .ok h

/-- One turn of the loop over the keys of the source, which are those it has at the start. -/
def mergeKey (mergeTwoMut : Heap κ Leaf → Val → ℕ → Except Failure (Heap κ Leaf))
    (target : Val) (source : ℕ) (h : Heap κ Leaf) (key : κ) : Except Failure (Heap κ Leaf) :=
  match h.own source key with
  | none => .ok h
  | some (.leaf a) => set R h target key (.leaf a)
  | some (.ref s) =>
    if !h.isArray s && !h.isArray source then do
      let h ← setDefault R h target key
      let next ← get R h target key
      mergeTwoMut h next s
    else set R h target key (.ref s)

/-- The heap after the merge; the result is the target. -/
def mergeTwoMut : ℕ → Heap κ Leaf → Val → ℕ → Except Failure (Heap κ Leaf)
  | 0, _, _, _ => .error .fuel
  | fuel + 1, h, target, source =>
    (h.obj source).keys.foldlM (mergeKey R (mergeTwoMut fuel) target source) h

/-- Whether a value that is not cloned is found within so many steps. -/
def uncloneableWithin (h : Heap κ Leaf) : ℕ → Val → Bool
  | _, .leaf a => !a.isCloneable
  | 0, .ref _ => false
  | n + 1, .ref l =>
    (h.obj l).keys.any fun key =>
      match h.own l key with
      | some v => uncloneableWithin h n v
      | none => false

/-- No path without a repetition is longer than the heap. -/
def uncloneable (h : Heap κ Leaf) (v : Val) : Bool := uncloneableWithin h h.size v

/-- Every object of the heap is copied, not only what the value reaches; nothing refers to the
copies that are too many. -/
def structuredClone (h : Heap κ Leaf) (l : ℕ) : Except Failure (Heap κ Leaf × ℕ) :=
  if uncloneable h (.ref l) then .error .dataCloneError
  else .ok (h.copy, l + h.size)

def deepMerge (fuel : ℕ) (h : Heap κ Leaf) (target : ℕ) :
    List ℕ → Except Failure (Heap κ Leaf × ℕ)
  | [] => .ok (h, target)
  | [source] => do
    let (h, ret) ← structuredClone h target
    let h ← mergeTwoMut R fuel h (.ref ret) source
    .ok (h, ret)
  | sources => do
    let (h, ret) ← structuredClone h target
    let h ← sources.foldlM (fun h s => mergeTwoMut R fuel h (.ref ret) s) h
    .ok (h, ret)

end

end Thcdb.Frontend.DeepMerge
