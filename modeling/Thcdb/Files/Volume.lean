import Mathlib.Data.List.Basic
import Mathlib.Logic.Function.Basic

namespace Files

variable {N B : Type*}

/-- `nodes` is how many nodes were made so far. -/
structure Volume (N B : Type*) where
  entries : N → Option ℕ
  content : ℕ → List B
  nodes : ℕ

/-- The bytes put at an offset, past a gap of zeros where the offset lies behind the end. -/
def writeAt [Zero B] (xs : List B) (offset : ℕ) (chunk : List B) : List B :=
  (xs ++ List.replicate (offset - xs.length) 0).take offset ++ chunk ++
    xs.drop (offset + chunk.length)

namespace Volume

/-- Every name leads to a node of its own. -/
structure Sound (v : Volume N B) : Prop where
  lt : ∀ p n, v.entries p = some n → n < v.nodes
  inj : ∀ p q n, v.entries p = some n → v.entries q = some n → p = q

variable (v : Volume N B)

def read (p : N) : Option (List B) := (v.entries p).map v.content

def write [Zero B] (n offset : ℕ) (chunk : List B) : Volume N B :=
  { v with content := Function.update v.content n (writeAt (v.content n) offset chunk) }

@[simp] theorem entries_write [Zero B] {n offset : ℕ} {chunk : List B} :
    (v.write n offset chunk).entries = v.entries := rfl

@[simp] theorem content_write [Zero B] {n offset : ℕ} {chunk : List B} :
    (v.write n offset chunk).content =
      Function.update v.content n (writeAt (v.content n) offset chunk) := rfl

theorem Sound.write [Zero B] {v : Volume N B} (h : v.Sound) {n offset : ℕ} {chunk : List B} :
    (v.write n offset chunk).Sound := ⟨h.lt, h.inj⟩

variable [DecidableEq N]

/-- The file is made, or emptied if it is there. -/
def create (p : N) : Volume N B × ℕ :=
  match v.entries p with
  | some n => ({ v with content := Function.update v.content n [] }, n)
  | none =>
    (⟨Function.update v.entries p (some v.nodes), Function.update v.content v.nodes [],
      v.nodes + 1⟩, v.nodes)

def remove (p : N) : Volume N B := { v with entries := Function.update v.entries p none }

variable {v} {p : N}

@[simp] theorem entries_remove : (v.remove p).entries = Function.update v.entries p none := rfl

@[simp] theorem content_remove : (v.remove p).content = v.content := rfl

theorem entries_create :
    (v.create p).1.entries = Function.update v.entries p (some (v.create p).2) := by
  unfold create
  split
  · next n hn => rw [← hn, Function.update_eq_self]
  · rfl

theorem content_create : (v.create p).1.content = Function.update v.content (v.create p).2 [] := by
  unfold create
  split <;> rfl

/-- The node is that of the name, or new. -/
theorem create_node : v.entries p = some (v.create p).2 ∨
    v.entries p = none ∧ (v.create p).2 = v.nodes := by
  unfold create
  split
  · next n hn => exact .inl hn
  · next hn => exact .inr ⟨hn, rfl⟩

theorem nodes_le_create : v.nodes ≤ (v.create p).1.nodes := by
  unfold create
  split
  · exact Nat.le_refl _
  · exact Nat.le_succ _

theorem create_lt (h : v.Sound) : (v.create p).2 < (v.create p).1.nodes := by
  unfold create
  split
  · next n hn => exact h.lt p n hn
  · exact Nat.lt_succ_self _

theorem Sound.create (h : v.Sound) : (v.create p).1.Sound := by
  have hother : ∀ q, q ≠ p → v.entries q ≠ some (v.create p).2 := by
    intro q hq hn
    rcases create_node (v := v) (p := p) with hp | ⟨-, hnew⟩
    · exact hq (h.inj q p _ hn hp)
    · exact absurd (h.lt q _ hn) (by omega)
  constructor
  · intro q n hn
    rw [entries_create] at hn
    by_cases hq : q = p
    · subst hq
      rw [Function.update_self] at hn
      cases hn
      exact create_lt h
    · rw [Function.update_of_ne hq] at hn
      exact Nat.lt_of_lt_of_le (h.lt q n hn) nodes_le_create
  · intro a b n ha hb
    rw [entries_create] at ha hb
    by_cases hap : a = p <;> by_cases hbp : b = p
    · rw [hap, hbp]
    · subst hap
      rw [Function.update_self] at ha
      rw [Function.update_of_ne hbp, ← ha] at hb
      exact absurd hb (hother b hbp)
    · subst hbp
      rw [Function.update_self] at hb
      rw [Function.update_of_ne hap, ← hb] at ha
      exact absurd ha (hother a hap)
    · rw [Function.update_of_ne hap] at ha
      rw [Function.update_of_ne hbp] at hb
      exact h.inj a b n ha hb

/-- The names that lead to an old node led there before. -/
theorem of_entries_create {q : N} {n : ℕ} (hn : n < v.nodes)
    (h : (v.create p).1.entries q = some n) : v.entries q = some n := by
  rw [entries_create] at h
  by_cases hq : q = p
  · subst hq
    rw [Function.update_self] at h
    rcases create_node (v := v) (p := q) with hsome | ⟨-, hnew⟩
    · rw [hsome, h]
    · rw [hnew, Option.some.injEq] at h
      omega
  · rwa [Function.update_of_ne hq] at h

theorem of_entries_remove {q : N} {n : ℕ} (h : (v.remove p).entries q = some n) :
    v.entries q = some n := by
  by_cases hq : q = p
  · subst hq
    simp at h
  · simpa [Function.update_of_ne hq] using h

theorem Sound.remove (h : v.Sound) : (v.remove p).Sound := by
  exact ⟨fun q n hn => h.lt q n (of_entries_remove hn),
    fun a b n ha hb => h.inj a b n (of_entries_remove ha) (of_entries_remove hb)⟩

end Volume

section Filled

variable {xs bytes chunk : List B} {m offset k : ℕ}

/-- A file on its way to hold `bytes`: the first `m` are in place, and it is no longer than they
are. -/
structure Filled (xs bytes : List B) (m : ℕ) : Prop where
  length : xs.length ≤ bytes.length
  same : ∀ k < m, xs[k]? = bytes[k]?

theorem Filled.nil : Filled [] bytes 0 := ⟨Nat.zero_le _, fun _ h => absurd h (Nat.not_lt_zero _)⟩

theorem Filled.eq (h : Filled xs bytes bytes.length) : xs = bytes := by
  apply List.ext_getElem?
  intro k
  by_cases hk : k < bytes.length
  · exact h.same k hk
  · have hlen := h.length
    rw [List.getElem?_eq_none (by omega), List.getElem?_eq_none (by omega)]

variable [Zero B]

theorem length_writeAt : (writeAt xs offset chunk).length =
    max xs.length (offset + chunk.length) := by
  simp only [writeAt, List.length_append, List.length_take, List.length_replicate,
    List.length_drop]
  omega

/-- Before the offset nothing changes, but for the gap. -/
theorem getElem?_writeAt_lt (hk : k < offset) (hlen : k < xs.length) :
    (writeAt xs offset chunk)[k]? = xs[k]? := by
  have htake : k < ((xs ++ List.replicate (offset - xs.length) 0).take offset).length := by
    simp only [List.length_take, List.length_append, List.length_replicate]
    omega
  rw [writeAt, List.append_assoc, List.getElem?_append_left htake, List.getElem?_take_of_lt hk,
    List.getElem?_append_left hlen]

theorem getElem?_writeAt_chunk (hk : offset ≤ k) (hlt : k < offset + chunk.length) :
    (writeAt xs offset chunk)[k]? = chunk[k - offset]? := by
  have htake : ((xs ++ List.replicate (offset - xs.length) 0).take offset).length = offset := by
    simp only [List.length_take, List.length_append, List.length_replicate]
    omega
  rw [writeAt, List.append_assoc, List.getElem?_append_right (by omega), htake,
    List.getElem?_append_left (by omega)]

theorem getElem?_writeAt_ge (hk : offset + chunk.length ≤ k) :
    (writeAt xs offset chunk)[k]? = xs[k]? := by
  have htake : ((xs ++ List.replicate (offset - xs.length) 0).take offset).length = offset := by
    simp only [List.length_take, List.length_append, List.length_replicate]
    omega
  rw [writeAt, List.append_assoc, List.getElem?_append_right (by omega), htake,
    List.getElem?_append_right (by omega), List.getElem?_drop]
  congr 1
  omega

/-- A write of bytes that belong there leaves the rest as it is. -/
theorem Filled.length_writeAt_le (h : Filled xs bytes m) (hchunk : chunk <+: bytes.drop offset)
    (hoffset : offset ≤ bytes.length) : (writeAt xs offset chunk).length ≤ bytes.length := by
  have hlen := h.length
  have hle := hchunk.length_le
  rw [List.length_drop] at hle
  rw [length_writeAt]
  omega

theorem getElem?_writeAt_of_isPrefix (hchunk : chunk <+: bytes.drop offset) (hk : offset ≤ k)
    (hlt : k < offset + chunk.length) : (writeAt xs offset chunk)[k]? = bytes[k]? := by
  obtain ⟨rest, hrest⟩ := hchunk
  have hbytes : (bytes.drop offset)[k - offset]? = bytes[k]? := by
    rw [List.getElem?_drop]
    congr 1
    omega
  rw [getElem?_writeAt_chunk hk hlt, ← hbytes, ← hrest, List.getElem?_append_left (by omega)]

/-- Whoever writes the same bytes at an offset of its own spoils nothing. -/
theorem Filled.writeAt (h : Filled xs bytes m) (hchunk : chunk <+: bytes.drop offset)
    (hoffset : offset ≤ bytes.length) : Filled (Files.writeAt xs offset chunk) bytes m := by
  have hlength := h.length_writeAt_le hchunk hoffset
  refine ⟨hlength, ?_⟩
  intro k hk
  by_cases hend : k < bytes.length
  · have hxs : k < xs.length := by
      have hsame := h.same k hk
      rw [List.getElem?_eq_getElem hend, List.getElem?_eq_some_iff] at hsame
      exact hsame.1
    by_cases hlt : k < offset
    · rw [getElem?_writeAt_lt hlt hxs, h.same k hk]
    · by_cases hin : k < offset + chunk.length
      · exact getElem?_writeAt_of_isPrefix hchunk (Nat.not_lt.mp hlt) hin
      · rw [getElem?_writeAt_ge (Nat.not_lt.mp hin), h.same k hk]
  · rw [List.getElem?_eq_none (by omega), List.getElem?_eq_none (by omega)]

/-- The next bytes fill the file further. -/
theorem Filled.writeNext (h : Filled xs bytes m) (hchunk : chunk <+: bytes.drop m)
    (hm : m ≤ bytes.length) : Filled (Files.writeAt xs m chunk) bytes (m + chunk.length) := by
  refine ⟨h.length_writeAt_le hchunk hm, ?_⟩
  intro k hk
  by_cases hlt : k < m
  · exact (h.writeAt hchunk hm).same k hlt
  · exact getElem?_writeAt_of_isPrefix hchunk (Nat.not_lt.mp hlt) hk

end Filled

end Files
