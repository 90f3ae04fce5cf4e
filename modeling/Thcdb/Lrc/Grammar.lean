import Thcdb.Lrc.Checked

namespace Thcdb.Lrc
open Text

def Digits (bytes : List ℕ) : Prop := bytes ≠ [] ∧ ∀ b ∈ bytes, isAsciiDigit b

/-- Seconds, and one to three digits of a fraction behind any byte. -/
inductive Clock : List ℕ → Prop
  | whole {seconds : List ℕ} : Digits seconds → seconds.length = 2 → Clock seconds
  | fraction {seconds fraction : List ℕ} {mark : ℕ} : Digits seconds → seconds.length = 2 →
      Digits fraction → fraction.length ≤ 3 → Clock (seconds ++ mark :: fraction)

def Stamp (bytes : List ℕ) : Prop :=
  ∃ minutes clock, bytes = minutes ++ ':'.toNat :: clock ∧ Digits minutes ∧ Clock clock

/-- A bracket that closes these bytes is the one that is found. -/
structure Closed (bytes : List ℕ) : Prop where
  le : 5 ≤ bytes.length
  length_le : bytes.length ≤ 13
  bracket : ']'.toNat ∉ bytes.drop 5

inductive Tags : List ℕ → List ℕ → Prop
  | nil (rest : List ℕ) : Tags rest rest
  | cons {stamp rest behind : List ℕ} : Closed stamp → Stamp stamp → Tags rest behind →
      Tags ('['.toNat :: (stamp ++ ']'.toNat :: rest)) behind

/-- Blank lines, comments and lines without a tag. -/
def Ignored (line : Str) : Prop := line.head? ≠ some '['

def LyricLine (line : Str) : Prop :=
  line.head? = some '[' ∧ ∃ behind, Tags (asBytes line) behind ∧ behind.head? ≠ some '['.toNat

def Legible (line : Str) : Prop :=
  Ignored line ∨ LyricLine line ∨ ∃ key value, MetaLine line key value

/-- A line that begins with a timestamp, and whose last tag begins in its last five bytes. -/
def Truncated (line : Str) : Prop :=
  ∃ text, line = '[' :: text ∧ text.head?.any Char.isDigit ∧ ':' ∈ text ∧
    ∃ behind, Tags (asBytes line) ('['.toNat :: behind) ∧ behind.length < 5

variable {A : Atoi} {bytes rest xs ys acc : List ℕ} {c : Char} {n fuel cursor : ℕ}
  {s t line key value : Str}

section Timestamps

theorem ofNat_of_isAsciiDigit {b : ℕ} (h : isAsciiDigit b) :
    (Char.ofNat b).toNat = b ∧ (Char.ofNat b).isDigit := by
  have hdigits : ∀ b < 58, 48 ≤ b → (Char.ofNat b).toNat = b ∧ (Char.ofNat b).isDigit := by decide
  simp only [isAsciiDigit, Bool.and_eq_true, decide_eq_true_eq] at h
  exact hdigits b (by omega) h.1

/-- Bytes that are digits are the digits of a text. -/
theorem asBytes_ofNat (h : ∀ b ∈ bytes, isAsciiDigit b) :
    asBytes (bytes.map Char.ofNat) = bytes ∧ ∀ c ∈ bytes.map Char.ofNat, c.isDigit := by
  have hdigits : ∀ c ∈ bytes.map Char.ofNat, c.isDigit := by
    intro c hc
    obtain ⟨b, hb, rfl⟩ := List.mem_map.mp hc
    exact (ofNat_of_isAsciiDigit (h b hb)).2
  refine ⟨?_, hdigits⟩
  rw [asBytes_of_digits hdigits, List.map_map]
  have hmap : bytes.map (Char.toNat ∘ Char.ofNat) = bytes.map id :=
    List.map_congr_left fun b hb => (ofNat_of_isAsciiDigit (h b hb)).1
  rw [hmap, List.map_id]

theorem parse_isSome_iff (hA : A.Strict) (hlen : bytes.length ≤ 10) :
    (A.parse bytes).isSome ↔ Digits bytes := by
  constructor
  · intro h
    obtain ⟨n, hn⟩ := Option.isSome_iff_exists.mp h
    exact hA.digits bytes n hn
  · rintro ⟨hne, hdigits⟩
    obtain ⟨hbytes, hchars⟩ := asBytes_ofNat hdigits
    have hparse := A.parse_digits (bytes.map Char.ofNat) (mt List.map_eq_nil_iff.mp hne)
      (by rwa [List.length_map]) hchars
    rw [hbytes] at hparse
    rw [hparse]
    rfl

/-- Three bytes and more are read as seconds, a mark and a fraction. -/
theorem clock_iff_of_lt (hlt : 2 < bytes.length) (hlen : bytes.length ≤ 6) :
    Clock bytes ↔ Digits (bytes.take 2) ∧ Digits (bytes.drop 3) := by
  constructor
  · intro h
    cases h with
    | whole hdigits hwhole => omega
    | fraction hseconds htwo hfraction hthree =>
      rename_i seconds fraction mark
      have htake : (seconds ++ mark :: fraction).take 2 = seconds := by
        rw [← htwo]
        exact List.take_left
      have hdrop : (seconds ++ mark :: fraction).drop 3 = fraction := by
        rw [show 3 = seconds.length + 1 by omega]
        simp
      rw [htake, hdrop]
      exact ⟨hseconds, hfraction⟩
  · rintro ⟨hseconds, hfraction⟩
    have hsplit : bytes = bytes.take 2 ++ bytes[2] :: bytes.drop 3 := by
      rw [List.getElem_cons_drop, List.take_append_drop]
    rw [hsplit]
    refine .fraction hseconds ?_ hfraction ?_
    · rw [List.length_take]
      omega
    · rw [List.length_drop]
      omega

theorem fraction_isSome_iff (hA : A.Strict) {scale : ℕ} (hlt : 2 < bytes.length)
    (hlen : bytes.length ≤ 6) :
    ((A.parse (bytes.take 2)).bind fun seconds =>
      (A.parse (bytes.drop 3)).map fun millis => (seconds, millis * scale)).isSome ↔
        Clock bytes := by
  have hseconds : (bytes.take 2).length ≤ 10 := (List.length_take_le _ _).trans (by decide)
  have hmillis : (bytes.drop 3).length ≤ 10 := by
    rw [List.length_drop]
    omega
  rw [clock_iff_of_lt hlt hlen, ← parse_isSome_iff hA hseconds, ← parse_isSome_iff hA hmillis]
  cases A.parse (bytes.take 2) <;> cases A.parse (bytes.drop 3) <;> simp

theorem parts_isSome_iff (hA : A.Strict) : (Checked.parts A bytes).isSome ↔ Clock bytes := by
  unfold Checked.parts
  dsimp only
  split
  · next hlen =>
    rw [Option.isSome_map, parse_isSome_iff hA (by omega)]
    constructor
    · exact fun h => .whole h hlen
    · intro h
      cases h with
      | whole hdigits => exact hdigits
      | fraction _ htwo _ _ =>
        rw [List.length_append, List.length_cons] at hlen
        omega
  · exact fraction_isSome_iff hA (by omega) (by omega)
  · exact fraction_isSome_iff hA (by omega) (by omega)
  · exact fraction_isSome_iff hA (by omega) (by omega)
  · next h2 h4 h5 h6 =>
    -- no clock has another length
    refine iff_of_false nofun ?_
    intro h
    cases h with
    | whole hdigits hlen => exact h2 hlen
    | fraction hseconds htwo hfraction hthree =>
      rename_i seconds fraction mark
      have hpos := List.length_pos_iff.mpr hfraction.1
      have hlen : (seconds ++ mark :: fraction).length = fraction.length + 3 := by
        rw [List.length_append, List.length_cons]
        omega
      have hcases : fraction.length = 1 ∨ fraction.length = 2 ∨ fraction.length = 3 := by omega
      rcases hcases with h | h | h
      · exact h4 (by omega)
      · exact h5 (by omega)
      · exact h6 (by omega)

theorem colon_not_mem_digits (h : Digits bytes) : ':'.toNat ∉ bytes := by
  intro hmem
  have := h.2 _ hmem
  revert this
  decide

theorem parseTimestamp_isSome_iff (hA : A.Strict) (hlen : bytes.length ≤ 13) :
    (parseTimestamp A bytes).isSome ↔ Stamp bytes := by
  rw [Checked.parseTimestamp_eq_parts]
  constructor
  · intro h
    obtain ⟨ms, hms⟩ := Option.isSome_iff_exists.mp h
    obtain ⟨colonIdx, hcolon, hms⟩ := Option.bind_eq_some_iff.mp hms
    obtain ⟨minutes, hminutes, hms⟩ := Option.bind_eq_some_iff.mp hms
    obtain ⟨p, hparts, -⟩ := Option.map_eq_some_iff.mp hms
    have hclock : Clock (bytes.drop (colonIdx + 1)) :=
      (parts_isSome_iff hA).mp (Option.isSome_of_eq_some hparts)
    obtain ⟨hlt, hbyte, -⟩ := List.findIdx?_eq_some_iff_getElem.mp hcolon
    have hsplit : bytes = bytes.take colonIdx ++ ':'.toNat :: bytes.drop (colonIdx + 1) := by
      rw [← of_decide_eq_true hbyte, List.getElem_cons_drop, List.take_append_drop]
    exact ⟨_, _, hsplit, hA.digits _ _ hminutes, hclock⟩
  · rintro ⟨minutes, clock, rfl, hminutes, hclock⟩
    have hcolon : findCharIndex ':' (minutes ++ ':'.toNat :: clock) = some minutes.length :=
      position_split _ _ (colon_not_mem_digits hminutes)
    have hdrop : (minutes ++ ':'.toNat :: clock).drop (minutes.length + 1) = clock := by simp
    -- the two seconds and the colon leave ten digits for the minutes
    have htwo : 2 ≤ clock.length := by
      cases hclock with
      | whole _ h => omega
      | fraction _ h _ _ =>
        rw [List.length_append]
        omega
    have hshort : minutes.length ≤ 10 := by
      rw [List.length_append, List.length_cons] at hlen
      omega
    obtain ⟨m, hm⟩ := Option.isSome_iff_exists.mp ((parse_isSome_iff hA hshort).mpr hminutes)
    obtain ⟨p, hp⟩ := Option.isSome_iff_exists.mp ((parts_isSome_iff hA).mpr hclock)
    rw [hcolon, Option.bind_some, List.take_left, hm, Option.bind_some, hdrop, hp]
    rfl

end Timestamps

section Tags
variable {stamp : List ℕ}

theorem window_eq : window rest = (rest.take 14).drop 5 := by
  unfold window
  split_ifs with h
  · rfl
  · rw [List.take_of_length_le (by omega)]

/-- The bracket that is found closes what stands before it. -/
theorem closed_of_find {closing : ℕ} (h : findCharIndex ']' (window rest) = some closing) :
    ∃ stamp tail, rest = stamp ++ ']'.toNat :: tail ∧ stamp.length = closing + 5 ∧
      Closed stamp := by
  obtain ⟨hlt, hbyte, hbefore⟩ := List.findIdx?_eq_some_iff_getElem.mp h
  have hend : closing + 5 < rest.length ∧ closing + 5 ≤ 13 := by
    rw [window_eq, List.length_drop, List.length_take] at hlt
    omega
  have hbracket : rest[closing + 5] = ']'.toNat := by
    have hget := of_decide_eq_true hbyte
    simpa [window_eq, Nat.add_comm] using hget
  have hlen : (rest.take (closing + 5)).length = closing + 5 := by
    rw [List.length_take]
    omega
  refine ⟨rest.take (closing + 5), rest.drop (closing + 5 + 1), ?_, hlen, ?_, ?_, ?_⟩
  · rw [← hbracket, List.getElem_cons_drop, List.take_append_drop]
  · omega
  · omega
  · intro hmem
    obtain ⟨i, hi, hget⟩ := List.getElem_of_mem hmem
    rw [List.length_drop, List.length_take] at hi
    have hno := hbefore i (by omega)
    simp only [window_eq, List.getElem_drop, List.getElem_take, decide_eq_true_eq] at hno hget
    exact hno hget

theorem find_of_closed (rest : List ℕ) (h : Closed stamp) :
    findCharIndex ']' (window (stamp ++ ']'.toNat :: rest)) = some (stamp.length - 5) :=
  find_window h.bracket h.le h.length_le

/-- A tag is one in one way only. -/
theorem closed_unique {stamp' rest' : List ℕ} (h : Closed stamp) (h' : Closed stamp')
    (heq : stamp ++ ']'.toNat :: rest = stamp' ++ ']'.toNat :: rest') :
    stamp = stamp' ∧ rest = rest' := by
  have hfound := find_of_closed rest h
  rw [heq, find_of_closed rest' h'] at hfound
  have hlen : stamp.length = stamp'.length := by
    have := Option.some.inj hfound
    have := h.le
    have := h'.le
    omega
  obtain ⟨hstamp, hrest⟩ := List.append_inj heq hlen
  exact ⟨hstamp, (List.cons.inj hrest).2⟩

/-- Where a tag begins: it is cut off, or another one than the parser takes, or taken. -/
theorem parseTags_tag (fuel : ℕ) (acc : List ℕ) (hA : A.Strict)
    (hdrop : bytes.drop cursor = '['.toNat :: rest) :
    rest.length < 5 ∧ parseTags A bytes (fuel + 1) acc cursor = .error .panic ∨
    5 ≤ rest.length ∧ (∃ e, parseTags A bytes (fuel + 1) acc cursor = .error (.error e)) ∧
      (∀ stamp tail, rest = stamp ++ ']'.toNat :: tail → Closed stamp → ¬Stamp stamp) ∨
    ∃ stamp tail ms, rest = stamp ++ ']'.toNat :: tail ∧ Closed stamp ∧ Stamp stamp ∧
      bytes.drop (cursor + (stamp.length + 2)) = tail ∧
      parseTags A bytes (fuel + 1) acc cursor =
        parseTags A bytes fuel (acc ++ [ms]) (cursor + (stamp.length + 2)) := by
  have hhead : bytes[cursor]? = some '['.toNat := by
    rw [← List.head?_drop, hdrop]
    rfl
  have hrest : bytes.drop (cursor + 1) = rest := by
    rw [← List.tail_drop, hdrop]
    rfl
  rw [parseTags, if_pos hhead]
  simp only [hrest]
  by_cases hshort : rest.length < 5
  · exact .inl ⟨hshort, if_pos hshort⟩
  · rw [if_neg hshort]
    refine .inr ?_
    cases hfound : findCharIndex ']' (window rest) with
    | none =>
      refine .inl ⟨not_lt.mp hshort, ⟨_, rfl⟩, ?_⟩
      rintro stamp tail rfl hclosed
      rw [find_of_closed tail hclosed] at hfound
      cases hfound
    | some closing =>
      -- the bracket that is found closes the only tag that begins here
      obtain ⟨stamp, tail, rfl, hlen, hclosed⟩ := closed_of_find hfound
      have hstamp := parseTimestamp_isSome_iff hA hclosed.length_le
      dsimp only
      rw [← hlen, List.take_left]
      cases hms : parseTimestamp A stamp with
      | none =>
        refine .inl ⟨not_lt.mp hshort, ⟨_, rfl⟩, ?_⟩
        intro stamp' tail' heq hclosed' hvalid
        obtain ⟨rfl, -⟩ := closed_unique hclosed hclosed' heq
        have hsome := hstamp.mpr hvalid
        rw [hms] at hsome
        cases hsome
      | some ms =>
        refine .inr ⟨stamp, tail, ms, rfl, hclosed, ?_, ?_, rfl⟩
        · exact hstamp.mp (Option.isSome_of_eq_some hms)
        · have hpast : cursor + (stamp.length + 2) = cursor + 1 + (stamp.length + 1) := by omega
          rw [hpast, ← List.drop_drop, hrest]
          simp

/-- What the loop returns is what follows some tags, and where it panics a tag is cut off. -/
theorem tags_of_parseTags (hA : A.Strict) (hfuel : bytes.length ≤ cursor + fuel)
    (hcursor : cursor ≤ bytes.length) :
    (∀ timestamps n, parseTags A bytes fuel acc cursor = .ok (timestamps, n) →
      n ≤ bytes.length ∧ Tags (bytes.drop cursor) (bytes.drop n)) ∧
    (parseTags A bytes fuel acc cursor = .error .panic →
      ∃ behind, Tags (bytes.drop cursor) ('['.toNat :: behind) ∧ behind.length < 5) := by
  induction fuel generalizing acc cursor with
  | zero =>
    constructor
    · intro timestamps n h
      cases h
      exact ⟨hcursor, .nil _⟩
    · intro h
      cases h
  | succ fuel ih =>
    by_cases hhead : bytes[cursor]? = some '['.toNat
    · obtain ⟨rest, hdrop⟩ : ∃ rest, bytes.drop cursor = '['.toNat :: rest := by
        rw [← List.head?_drop] at hhead
        exact List.head?_eq_some_iff.mp hhead
      rcases parseTags_tag fuel acc hA hdrop with
        ⟨hshort, hpanic⟩ | ⟨-, ⟨e, herror⟩, -⟩ |
        ⟨stamp, tail, ms, rfl, hclosed, hstamp, htail, hstep⟩
      · rw [hpanic]
        refine ⟨fun timestamps n h => ?_, fun _ => ⟨rest, hdrop ▸ .nil _, hshort⟩⟩
        cases h
      · rw [herror]
        constructor
        · intro timestamps n h
          cases h
        · intro h
          cases h
      · -- a tag is longer than the one unit of fuel it takes
        have hfuel' : bytes.length ≤ cursor + (stamp.length + 2) + fuel := by omega
        have hcursor' : cursor + (stamp.length + 2) ≤ bytes.length := by
          have hlen := congrArg List.length hdrop
          simp only [List.length_drop, List.length_cons, List.length_append] at hlen
          omega
        obtain ⟨hok, hpanic⟩ := ih hfuel' hcursor'
        rw [hstep, hdrop]
        rw [htail] at hok hpanic
        refine ⟨fun timestamps n h => ?_, ?_⟩
        · obtain ⟨hle, htags⟩ := hok timestamps n h
          exact ⟨hle, .cons hclosed hstamp htags⟩
        intro h
        obtain ⟨behind, htags, hlen⟩ := hpanic h
        exact ⟨behind, .cons hclosed hstamp htags, hlen⟩
    · rw [parseTags, if_neg hhead]
      constructor
      · intro timestamps n h
        cases h
        exact ⟨hcursor, .nil _⟩
      · intro h
        cases h

/-- Where a tag begins there is fuel left. -/
theorem exists_fuel (hdrop : bytes.drop cursor = n :: rest) (hfuel : bytes.length ≤ cursor + fuel) :
    ∃ k, fuel = k + 1 := by
  have hlen := congrArg List.length hdrop
  rw [List.length_drop, List.length_cons] at hlen
  exact ⟨fuel - 1, by omega⟩

theorem parseTags_of_tags (hA : A.Strict) {behind : List ℕ} (htags : Tags rest behind)
    (hdrop : bytes.drop cursor = rest) (hfuel : bytes.length ≤ cursor + fuel) :
    (behind.head? ≠ some '['.toNat → ∃ r, parseTags A bytes fuel acc cursor = .ok r) ∧
    ∀ left, behind = '['.toNat :: left → left.length < 5 →
      parseTags A bytes fuel acc cursor = .error .panic := by
  induction htags generalizing fuel acc cursor with
  | nil rest =>
    constructor
    · intro hhead
      cases fuel with
      | zero => exact ⟨_, rfl⟩
      | succ fuel =>
        rw [← hdrop, List.head?_drop] at hhead
        rw [parseTags, if_neg hhead]
        exact ⟨_, rfl⟩
    · rintro left rfl hshort
      -- a tag that is taken would need the five bytes that are not there
      obtain ⟨k, rfl⟩ := exists_fuel hdrop hfuel
      rcases parseTags_tag k acc hA hdrop with
        ⟨-, h⟩ | ⟨hlong, -, -⟩ | ⟨stamp, tail, -, rfl, hclosed, -⟩
      · exact h
      · omega
      · have hle := hclosed.le
        rw [List.length_append] at hshort
        omega
  | cons hclosed hstamp _ ih =>
    obtain ⟨k, rfl⟩ := exists_fuel hdrop hfuel
    rcases parseTags_tag k acc hA hdrop with
      ⟨hshort, -⟩ | ⟨-, -, hno⟩ | ⟨stamp', tail, ms, heq, hclosed', -, htail, hstep⟩
    · have hle := hclosed.le
      rw [List.length_append] at hshort
      omega
    · exact absurd hstamp (hno _ _ rfl hclosed)
    · obtain ⟨-, rfl⟩ := closed_unique hclosed hclosed' heq
      rw [hstep]
      exact ih htail (by omega)

theorem parseTags_panic_iff (hA : A.Strict) :
    parseTags A bytes bytes.length [] 0 = .error .panic ↔
      ∃ behind, Tags bytes ('['.toNat :: behind) ∧ behind.length < 5 := by
  have hfuel : bytes.length ≤ 0 + bytes.length := by omega
  constructor
  · exact (tags_of_parseTags hA hfuel (Nat.zero_le _)).2
  · rintro ⟨behind, htags, hlen⟩
    exact (parseTags_of_tags hA htags rfl hfuel).2 behind rfl hlen

theorem parseTags_ok_iff (hA : A.Strict) :
    (∃ r, parseTags A bytes bytes.length [] 0 = .ok r) ↔
      ∃ behind, Tags bytes behind ∧ behind.head? ≠ some '['.toNat := by
  have hfuel : bytes.length ≤ 0 + bytes.length := by omega
  constructor
  · rintro ⟨⟨timestamps, n⟩, h⟩
    have hstop := parseTags_stops hfuel h
    rw [← List.head?_drop] at hstop
    exact ⟨_, ((tags_of_parseTags hA hfuel (Nat.zero_le _)).1 timestamps n h).2, hstop⟩
  · rintro ⟨behind, htags, hhead⟩
    exact (parseTags_of_tags hA htags rfl hfuel).1 hhead

end Tags

section Lines

/-- Bytes behind a bracket are those of the characters behind it. -/
theorem split_of_asBytes {p : List ℕ} (hc : c.toNat < 0x80) (h : asBytes s = p ++ c.toNat :: ys) :
    ∃ t u, s = t ++ c :: u ∧ asBytes t = p ∧ asBytes u = ys := by
  induction s generalizing p with
  | nil =>
    cases p <;> cases h
  | cons d s ih =>
    rw [asBytes_cons] at h
    rcases List.append_eq_append_iff.mp h with ⟨p', rfl, hs⟩ | ⟨q, hd, hs⟩
    · obtain ⟨t, u, rfl, rfl, rfl⟩ := ih hs
      exact ⟨d :: t, u, rfl, asBytes_cons, rfl⟩
    · cases q with
      | nil =>
        have hs' : asBytes s = [] ++ c.toNat :: ys := hs.symm
        obtain ⟨t, u, rfl, ht, rfl⟩ := ih hs'
        refine ⟨d :: t, u, rfl, ?_, rfl⟩
        rw [asBytes_cons, ht, hd, List.append_nil, List.append_nil]
      | cons b q =>
        -- an ASCII byte is a whole character
        obtain ⟨rfl, hys⟩ := List.cons.inj hs
        have hmem : c.toNat ∈ utf8 d := by
          rw [hd]
          exact List.mem_append_right _ List.mem_cons_self
        obtain rfl := Char.toNat_inj.mp ((mem_utf8_iff hc).mp hmem)
        rw [utf8_of_ascii hc] at hd
        have hlen := congrArg List.length hd
        rw [List.length_singleton, List.length_append, List.length_cons] at hlen
        obtain rfl : p = [] := List.length_eq_zero_iff.mp (by omega)
        obtain rfl : q = [] := List.length_eq_zero_iff.mp (by omega)
        exact ⟨[], s, rfl, rfl, hys.symm⟩

/-- What follows tags begins at a character. -/
theorem exists_text_of_tags (htags : Tags bytes ys) (hs : asBytes s = bytes) :
    ∃ t u, s = t ++ u ∧ asBytes u = ys := by
  induction htags generalizing s with
  | nil rest => exact ⟨[], s, rfl, hs⟩
  | cons _ _ _ ih =>
    have hs' : asBytes s = ('['.toNat :: _) ++ ']'.toNat :: _ := hs
    obtain ⟨t, u, rfl, -, hu⟩ := split_of_asBytes (by decide) hs'
    obtain ⟨t', u', rfl, hu'⟩ := ih hu
    exact ⟨t ++ ']' :: t', u', by simp, hu'⟩

/-- The text is cut between characters. -/
theorem sliceFrom_of_parseTags (hA : A.Strict) {timestamps : List ℕ}
    (h : parseTags A (asBytes line) (asBytes line).length [] 0 = .ok (timestamps, n)) :
    ∃ text, sliceFrom line n = some text := by
  obtain ⟨hle, htags⟩ :=
    (tags_of_parseTags hA (Nat.le_add_left _ _) (Nat.zero_le _)).1 timestamps n h
  obtain ⟨t, u, rfl, hu⟩ := exists_text_of_tags htags rfl
  have hlen := congrArg List.length hu
  rw [List.length_drop, asBytes_append, List.length_append] at hlen
  rw [asBytes_append, List.length_append] at hle
  obtain rfl : n = (asBytes t).length := by omega
  exact ⟨u, sliceFrom_append t u⟩

theorem parseLyricLine_cases (hA : A.Strict) (line : Str) :
    (∃ e, parseTags A (asBytes line) (asBytes line).length [] 0 = .error e ∧
      parseLyricLine A line = .error e) ∨
    ∃ timestamps n text, parseTags A (asBytes line) (asBytes line).length [] 0 =
      .ok (timestamps, n) ∧ parseLyricLine A line =
        .ok (if timestamps.isEmpty then none else some ⟨timestamps, text⟩) := by
  unfold parseLyricLine
  dsimp only
  cases htags : parseTags A (asBytes line) (asBytes line).length [] 0 with
  | error e => exact .inl ⟨e, rfl, rfl⟩
  | ok r =>
    obtain ⟨timestamps, n⟩ := r
    obtain ⟨text, htext⟩ := sliceFrom_of_parseTags hA htags
    refine .inr ⟨timestamps, n, text, rfl, ?_⟩
    simp only [Except.bind, htext]
    split_ifs <;> rfl

theorem parseLyricLine_panic_iff (hA : A.Strict) :
    parseLyricLine A line = .error .panic ↔
      ∃ behind, Tags (asBytes line) ('['.toNat :: behind) ∧ behind.length < 5 := by
  rw [← parseTags_panic_iff hA]
  rcases parseLyricLine_cases hA line with ⟨e, htags, hline⟩ | ⟨_, _, _, htags, hline⟩
  · rw [htags, hline, Except.error.injEq, Except.error.injEq]
  · rw [htags, hline]
    exact iff_of_false nofun nofun

/-- The loop adds to the timestamps it has. -/
theorem prefix_of_parseTags {timestamps : List ℕ}
    (h : parseTags A bytes fuel acc cursor = .ok (timestamps, n)) : acc <+: timestamps := by
  induction fuel generalizing acc cursor with
  | zero =>
    cases h
    exact List.prefix_rfl
  | succ fuel ih =>
    rw [parseTags] at h
    split_ifs at h with hhead
    · simp only at h
      split_ifs at h
      split at h
      · cases h
      · split at h
        · cases h
        · exact (List.prefix_append _ _).trans (ih h)
    · cases h
      exact List.prefix_rfl

theorem timestamps_ne_nil (hA : A.Strict) {timestamps : List ℕ} (hline : line.head? = some '[')
    (h : parseTags A (asBytes line) (asBytes line).length [] 0 = .ok (timestamps, n)) :
    timestamps ≠ [] := by
  obtain ⟨text, rfl⟩ := List.head?_eq_some_iff.mp hline
  rw [asBytes_cons_of_ascii (by decide), List.length_cons] at h
  have hdrop : ('['.toNat :: asBytes text).drop 0 = '['.toNat :: asBytes text := rfl
  rcases parseTags_tag (asBytes text).length [] hA hdrop with
    ⟨-, hpanic⟩ | ⟨-, ⟨e, herror⟩, -⟩ | ⟨_, _, ms, -, -, -, -, hstep⟩
  · rw [hpanic] at h
    cases h
  · rw [herror] at h
    cases h
  · rw [hstep] at h
    rintro rfl
    exact List.cons_ne_nil ms [] (List.prefix_nil.mp (prefix_of_parseTags h))

/-- A line that begins with a bracket has a tag, if it is taken at all. -/
theorem parseLyricLine_some_iff (hA : A.Strict) (hline : line.head? = some '[') :
    (∃ l, parseLyricLine A line = .ok (some l)) ↔ LyricLine line := by
  unfold LyricLine
  rw [← parseTags_ok_iff hA]
  rcases parseLyricLine_cases hA line with
    ⟨e, htags, hlyric⟩ | ⟨timestamps, n, text, htags, hlyric⟩
  · rw [htags, hlyric]
    exact iff_of_false nofun nofun
  · have hne : ¬timestamps.isEmpty := mt List.isEmpty_iff.mp (timestamps_ne_nil hA hline htags)
    rw [htags, hlyric, if_neg hne]
    exact iff_of_true ⟨_, rfl⟩ ⟨hline, _, rfl⟩

theorem parseLyricLine_ne_none (hA : A.Strict) (hline : line.head? = some '[') :
    parseLyricLine A line ≠ .ok none := by
  rcases parseLyricLine_cases hA line with
    ⟨e, htags, hlyric⟩ | ⟨timestamps, n, text, htags, hlyric⟩
  · rw [hlyric]
    exact nofun
  · have hne : ¬timestamps.isEmpty := mt List.isEmpty_iff.mp (timestamps_ne_nil hA hline htags)
    rw [hlyric, if_neg hne]
    exact nofun

theorem parseLine_no_bracket (hne : line ≠ []) (h : Ignored line) :
    parseLine A line = .ok none := by
  obtain ⟨c, text, rfl⟩ := List.exists_cons_of_ne_nil hne
  have hfirst : (asBytes (c :: text)).head? ≠ some '['.toNat :=
    mt (head?_asBytes_eq_iff (by decide)).mp h
  unfold parseLine
  cases hb : (asBytes (c :: text)).head? with
  | none => exact absurd (asBytes_eq_nil_iff.mp (List.head?_eq_none_iff.mp hb)) hne
  | some b =>
    have hb' : b ≠ '['.toNat := fun heq => hfirst (hb.trans (congrArg some heq))
    simp only [hb, slice, Option.elim_some, Except.bind, if_pos hb']

theorem parseLine_no_colon {text : Str} (h : ':' ∉ text) :
    parseLine A ('[' :: text) = .error (.error .InvalidTag) := by
  have hnone : findCharIndex ':' (asBytes text) = none :=
    position_eq_none (mt (mem_asBytes_iff (by decide)).mp h)
  have hbytes : asBytes ('[' :: text) = '['.toNat :: asBytes text :=
    asBytes_cons_of_ascii (by decide)
  simp only [parseLine, hbytes, List.head?_cons, slice, Option.elim_some, Except.bind,
    List.drop_one, List.tail_cons, hnone, ne_eq, not_true_eq_false, if_false]

theorem parseLine_digit (hkey : ':' ∉ key) (hdigit : key.head?.any Char.isDigit) :
    parseLine A ('[' :: (key ++ ':' :: t)) =
      (parseLyricLine A ('[' :: (key ++ ':' :: t))).map fun l => l.map TypedLine.Lyric := by
  have hne : key ≠ [] := by
    rintro rfl
    cases hdigit
  rw [parseLine_colon hkey, if_neg hne, if_pos hdigit]

/-- Metadata is never sliced out of bounds. -/
theorem parseLine_ne_panic (hkey : ':' ∉ key) (hdigit : ¬key.head?.any Char.isDigit) :
    parseLine A ('[' :: (key ++ ':' :: t)) ≠ .error .panic := by
  by_cases hbracket : ']' ∈ t
  · obtain ⟨value, tail, rfl, hvalue⟩ := List.eq_append_cons_of_mem hbracket
    rw [parseLine_value hkey (Bool.eq_false_iff.mpr hdigit) hvalue]
    split_ifs <;> exact nofun
  · have hnone : memchr ']' (asBytes t) = none :=
      position_eq_none (mt (mem_asBytes_iff (by decide)).mp hbracket)
    rw [parseLine_colon hkey, hnone]
    split_ifs <;> exact nofun

theorem parseLine_meta_iff :
    parseLine A line = .ok (some (.Meta key value)) ↔ MetaLine line key value := by
  constructor
  · intro h
    rcases parseLine_some h with ⟨key', value', htyped, hmeta⟩ | ⟨l, htyped, -⟩
    · cases htyped
      exact hmeta
    · cases htyped
  · exact parseLine_of_metaLine

/-- What begins with a tag begins with a digit, and has a colon. -/
theorem start_of_tags {text : Str} {behind : List ℕ} (h : Tags (asBytes ('[' :: text)) behind)
    (hbehind : behind.head? ≠ some '['.toNat) :
    text.head?.any Char.isDigit ∧ ':' ∈ text := by
  rw [asBytes_cons_of_ascii (by decide)] at h
  generalize hbytes : '['.toNat :: asBytes text = bytes at h
  cases h with
  | nil rest =>
    rw [← hbytes] at hbehind
    exact absurd rfl hbehind
  | cons _ hstamp _ =>
    obtain ⟨minutes, clock, rfl, ⟨hne, hdigits⟩, -⟩ := hstamp
    obtain ⟨b, minutes, rfl⟩ := List.exists_cons_of_ne_nil hne
    obtain ⟨-, htext⟩ := List.cons.inj hbytes
    have hhead : (asBytes text).head? = some b := by
      rw [htext]
      rfl
    constructor
    · rw [← isAsciiDigit_head hhead]
      exact hdigits b List.mem_cons_self
    · rw [← mem_asBytes_iff (by decide), htext]
      simp

theorem head?_key {key t : Str} (h : (key ++ ':' :: t).head?.any Char.isDigit) :
    key.head?.any Char.isDigit := by
  cases key with
  | nil => cases h
  | cons c key => exact h

theorem parseLine_lyric_iff (hA : A.Strict) :
    (∃ l, parseLine A line = .ok (some (.Lyric l))) ↔ LyricLine line := by
  constructor
  · rintro ⟨l, h⟩
    obtain ⟨key, rest, rfl, -⟩ := colon_of_parseLine h
    rcases parseLine_some h with ⟨_, _, htyped, -⟩ | ⟨l', -, hl⟩
    · cases htyped
    · exact (parseLyricLine_some_iff hA rfl).mp ⟨l', hl⟩
  · intro h
    obtain ⟨hline, behind, htags, hbehind⟩ := h
    obtain ⟨text, rfl⟩ := List.head?_eq_some_iff.mp hline
    obtain ⟨hdigit, hcolon⟩ := start_of_tags htags hbehind
    obtain ⟨key, rest, rfl, hkey⟩ := List.eq_append_cons_of_mem hcolon
    obtain ⟨l, hl⟩ := (parseLyricLine_some_iff hA hline).mpr ⟨hline, behind, htags, hbehind⟩
    rw [parseLine_digit hkey (head?_key hdigit), hl]
    exact ⟨l, rfl⟩

theorem parseLine_panic_iff (hA : A.Strict) (hne : line ≠ []) :
    parseLine A line = .error .panic ↔ Truncated line := by
  constructor
  · intro h
    by_cases hbracket : line.head? = some '['
    · obtain ⟨text, rfl⟩ := List.head?_eq_some_iff.mp hbracket
      by_cases hcolon : ':' ∈ text
      · obtain ⟨key, rest, rfl, hkey⟩ := List.eq_append_cons_of_mem hcolon
        by_cases hdigit : key.head?.any Char.isDigit
        · refine ⟨_, rfl, ?_, hcolon, (parseLyricLine_panic_iff hA).mp ?_⟩
          · rw [List.head?_append]
            cases key with
            | nil => cases hdigit
            | cons c key => exact hdigit
          · rw [parseLine_digit hkey hdigit] at h
            cases hl : parseLyricLine A ('[' :: (key ++ ':' :: rest)) with
            | error e =>
              rw [hl] at h
              cases h
              rfl
            | ok r =>
              rw [hl] at h
              cases h
        · exact absurd h (parseLine_ne_panic hkey hdigit)
      · rw [parseLine_no_colon hcolon] at h
        cases h
    · rw [parseLine_no_bracket hne hbracket] at h
      cases h
  · rintro ⟨text, rfl, hdigit, hcolon, hbehind⟩
    obtain ⟨key, rest, rfl, hkey⟩ := List.eq_append_cons_of_mem hcolon
    rw [parseLine_digit hkey (head?_key hdigit), (parseLyricLine_panic_iff hA).mpr hbehind]
    rfl

theorem parseLine_none_iff (hA : A.Strict) (hne : line ≠ []) :
    parseLine A line = .ok none ↔ Ignored line := by
  constructor
  · intro h hbracket
    obtain ⟨text, rfl⟩ := List.head?_eq_some_iff.mp hbracket
    by_cases hcolon : ':' ∈ text
    · obtain ⟨key, rest, rfl, hkey⟩ := List.eq_append_cons_of_mem hcolon
      by_cases hdigit : key.head?.any Char.isDigit
      · rw [parseLine_digit hkey hdigit] at h
        cases hl : parseLyricLine A ('[' :: (key ++ ':' :: rest)) with
        | error e =>
          rw [hl] at h
          cases h
        | ok r =>
          rw [hl] at h
          obtain rfl := Option.map_eq_none_iff.mp (Except.ok.inj h)
          exact parseLyricLine_ne_none hA hbracket hl
      · obtain ⟨value, hsome, -⟩ := metaLine_of_parseLine_colon hkey hdigit h
        cases hsome
    · rw [parseLine_no_colon hcolon] at h
      cases h
  · exact parseLine_no_bracket hne

end Lines

end Thcdb.Lrc
