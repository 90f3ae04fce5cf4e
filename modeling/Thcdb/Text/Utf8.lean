import Mathlib.Data.List.Basic
import Mathlib.Data.Nat.Notation

namespace Text

abbrev Str := List Char

def utf8 (c : Char) : List ℕ :=
  let n := c.toNat
  if n < 0x80 then [n]
  else if n < 0x800 then [0xC0 + n / 0x40, 0x80 + n % 0x40]
  else if n < 0x10000 then [0xE0 + n / 0x1000, 0x80 + n / 0x40 % 0x40, 0x80 + n % 0x40]
  else [0xF0 + n / 0x40000, 0x80 + n / 0x1000 % 0x40, 0x80 + n / 0x40 % 0x40, 0x80 + n % 0x40]

def asBytes (s : Str) : List ℕ := s.flatMap utf8

def position (b : ℕ) (bytes : List ℕ) : Option ℕ := bytes.findIdx? (· = b)

/-- `&s[n..]`, unless `n` is inside a character or past the end. -/
def sliceFrom : Str → ℕ → Option Str
  | [], n => if n = 0 then some [] else none
  | c :: s, n =>
    if n = 0 then some (c :: s)
    else if (utf8 c).length ≤ n then sliceFrom s (n - (utf8 c).length) else none

/-- `&s[..n]` -/
def sliceTo : Str → ℕ → Option Str
  | [], n => if n = 0 then some [] else none
  | c :: s, n =>
    if n = 0 then some []
    else if (utf8 c).length ≤ n then (sliceTo s (n - (utf8 c).length)).map (c :: ·) else none

section
variable {c d : Char} {s t xs ys : Str} {b n : ℕ}

theorem utf8_of_ascii (h : c.toNat < 0x80) : utf8 c = [c.toNat] := if_pos h

theorem utf8_ne_nil (c : Char) : utf8 c ≠ [] := by
  unfold utf8
  dsimp only
  split_ifs <;> simp

theorem length_utf8_pos (c : Char) : 0 < (utf8 c).length :=
  List.length_pos_iff.mpr (utf8_ne_nil c)

/-- An ASCII byte stands for its own character and for nothing else. -/
theorem mem_utf8_iff (hb : b < 0x80) : b ∈ utf8 c ↔ c.toNat = b := by
  unfold utf8
  dsimp only
  split_ifs <;> simp only [List.mem_cons, List.not_mem_nil, or_false] <;> omega

theorem asBytes_nil : asBytes [] = [] := rfl

theorem asBytes_cons : asBytes (c :: s) = utf8 c ++ asBytes s := List.flatMap_cons

theorem asBytes_append : asBytes (s ++ t) = asBytes s ++ asBytes t := List.flatMap_append

theorem asBytes_cons_of_ascii (h : c.toNat < 0x80) : asBytes (c :: s) = c.toNat :: asBytes s := by
  rw [asBytes_cons, utf8_of_ascii h]
  rfl

theorem asBytes_of_ascii (h : ∀ c ∈ s, c.toNat < 0x80) : asBytes s = s.map Char.toNat := by
  induction s with
  | nil => rfl
  | cons c s ih =>
    rw [asBytes_cons_of_ascii (h c List.mem_cons_self),
      ih fun d hd => h d (List.mem_cons_of_mem c hd), List.map_cons]

theorem asBytes_eq_nil_iff : asBytes s = [] ↔ s = [] := by
  cases s with
  | nil => simp [asBytes]
  | cons c s => simp [asBytes_cons, utf8_ne_nil]

theorem mem_asBytes_iff (hc : c.toNat < 0x80) : c.toNat ∈ asBytes s ↔ c ∈ s := by
  simp only [asBytes, List.mem_flatMap, mem_utf8_iff hc]
  constructor
  · rintro ⟨d, hd, heq⟩
    rwa [← Char.toNat_inj.mp heq]
  · intro h
    exact ⟨c, h, rfl⟩

theorem head?_asBytes_iff (hb : b < 0x80) :
    (asBytes s).head? = some b ↔ ∃ c, s.head? = some c ∧ c.toNat = b := by
  cases s with
  | nil => simp [asBytes]
  | cons c s =>
    rw [asBytes_cons, List.head?_append_of_ne_nil _ (utf8_ne_nil c), List.head?_cons]
    simp only [Option.some.injEq, exists_eq_left']
    unfold utf8
    dsimp only
    split_ifs <;> simp only [List.head?_cons, Option.some.injEq] <;> omega

theorem getLast?_asBytes_iff (hb : b < 0x80) :
    (asBytes s).getLast? = some b ↔ ∃ c, s.getLast? = some c ∧ c.toNat = b := by
  rcases List.eq_nil_or_concat s with rfl | ⟨s, c, rfl⟩
  · simp [asBytes]
  · have hlast : asBytes [c] = utf8 c := List.append_nil _
    rw [List.concat_eq_append, asBytes_append, hlast,
      List.getLast?_append_of_ne_nil _ (utf8_ne_nil c), List.getLast?_append_of_ne_nil _ (by simp)]
    simp only [List.getLast?_singleton, Option.some.injEq, exists_eq_left']
    unfold utf8
    dsimp only
    split_ifs <;> simp only [List.getLast?_cons_cons, List.getLast?_singleton, Option.some.injEq] <;>
      omega

theorem position_append (xs ys : List ℕ) (h : b ∉ xs) :
    position b (xs ++ ys) = (position b ys).map (· + xs.length) := by
  induction xs with
  | nil => simp [position]
  | cons x xs ih =>
    obtain ⟨hx, hxs⟩ := not_or.mp (mt List.mem_cons.mpr h)
    have hne : decide (x = b) = false := decide_eq_false (Ne.symm hx)
    change List.findIdx? _ (x :: (xs ++ ys)) = _
    rw [List.findIdx?_cons, hne, if_neg Bool.false_ne_true]
    change (position b (xs ++ ys)).map _ = _
    rw [ih hxs, Option.map_map]
    congr 1

theorem position_cons_self (ys : List ℕ) : position b (b :: ys) = some 0 := by
  simp [position, List.findIdx?_cons]

theorem position_split (xs ys : List ℕ) (h : b ∉ xs) :
    position b (xs ++ b :: ys) = some xs.length := by
  rw [position_append xs _ h, position_cons_self]
  simp

theorem position_eq_none {ys : List ℕ} (h : b ∉ ys) : position b ys = none := by
  rw [← List.append_nil ys, position_append ys _ h]
  rfl

/-- Where an ASCII byte is found in a text, the text has the character. -/
theorem position_asBytes (hc : c.toNat < 0x80) :
    position c.toNat (asBytes s) = some n ↔
      ∃ xs ys, s = xs ++ c :: ys ∧ c ∉ xs ∧ (asBytes xs).length = n := by
  constructor
  · intro h
    have hmem : c ∈ s := by
      rw [← mem_asBytes_iff hc]
      by_contra hnot
      rw [position_eq_none hnot] at h
      cases h
    obtain ⟨xs, ys, rfl, hxs⟩ := List.eq_append_cons_of_mem hmem
    rw [asBytes_append, asBytes_cons_of_ascii hc,
      position_split _ _ (mt (mem_asBytes_iff hc).mp hxs)] at h
    exact ⟨xs, ys, rfl, hxs, Option.some.inj h⟩
  · rintro ⟨xs, ys, rfl, hxs, rfl⟩
    rw [asBytes_append, asBytes_cons_of_ascii hc]
    exact position_split _ _ (mt (mem_asBytes_iff hc).mp hxs)

theorem sliceFrom_append (xs ys : Str) : sliceFrom (xs ++ ys) (asBytes xs).length = some ys := by
  induction xs with
  | nil => cases ys <;> rfl
  | cons c xs ih =>
    have hpos := length_utf8_pos c
    have hlen : (asBytes (c :: xs)).length = (utf8 c).length + (asBytes xs).length := by
      rw [asBytes_cons, List.length_append]
    have hne : (asBytes (c :: xs)).length ≠ 0 := by omega
    rw [List.cons_append, sliceFrom, if_neg hne, if_pos (by omega), hlen, Nat.add_sub_cancel_left]
    exact ih

theorem sliceTo_append (xs ys : Str) : sliceTo (xs ++ ys) (asBytes xs).length = some xs := by
  induction xs with
  | nil => cases ys <;> rfl
  | cons c xs ih =>
    have hpos := length_utf8_pos c
    have hlen : (asBytes (c :: xs)).length = (utf8 c).length + (asBytes xs).length := by
      rw [asBytes_cons, List.length_append]
    have hne : (asBytes (c :: xs)).length ≠ 0 := by omega
    rw [List.cons_append, sliceTo, if_neg hne, if_pos (by omega), hlen, Nat.add_sub_cancel_left, ih]
    rfl

theorem append_of_sliceFrom (h : sliceFrom s n = some t) :
    ∃ xs, s = xs ++ t ∧ (asBytes xs).length = n := by
  induction s generalizing n with
  | nil =>
    unfold sliceFrom at h
    split_ifs at h with hn
    cases h
    exact ⟨[], rfl, hn.symm⟩
  | cons c s ih =>
    unfold sliceFrom at h
    split_ifs at h with hn hle
    · cases h
      exact ⟨[], rfl, hn.symm⟩
    · obtain ⟨xs, rfl, hlen⟩ := ih h
      refine ⟨c :: xs, rfl, ?_⟩
      rw [asBytes_cons, List.length_append]
      omega

end

end Text
