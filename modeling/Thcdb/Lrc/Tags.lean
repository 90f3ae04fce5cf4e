import Thcdb.Lrc.Lyrics

namespace Thcdb.Lrc
open Text Lyrics

variable {A : Atoi} {ts fuel cursor n : ℕ} {bytes acc xs ys : List ℕ} {c : Char} {s text line : Str}
  {timestamps : List ℕ}

theorem asBytes_of_digits (h : ∀ c ∈ s, c.isDigit) : asBytes s = s.map Char.toNat := by
  apply asBytes_of_ascii
  intro c hc
  have := toNat_of_isDigit (h c hc)
  omega

theorem length_asBytes_of_digits (h : ∀ c ∈ s, c.isDigit) : (asBytes s).length = s.length := by
  rw [asBytes_of_digits h, List.length_map]

theorem not_mem_of_digits (h : ∀ c ∈ s, c.isDigit) (hc : c.isDigit = false) : c ∉ s := by
  intro hmem
  rw [h c hmem] at hc
  cases hc

theorem parse_padded {w : ℕ} (hn : n < 10 ^ 10) (hw : w ≤ 10) :
    A.parse (asBytes (padded w n)) = some n := by
  have hlen : (padded w n).length ≤ 10 := length_padded_le hn (by decide) hw
  rw [A.parse_digits _ padded_ne_nil hlen fun c => isDigit_of_mem_padded, ofDigitChars_padded]

def stamp (ts : ℕ) : Str :=
  padded 2 (ts / 60000) ++ ':' :: (padded 2 (ts / 1000 % 60) ++ '.' :: padded 3 (ts % 1000))

theorem displayTimestamp_eq : displayTimestamp ts = '[' :: (stamp ts ++ [']']) := by
  simp [displayTimestamp, stamp]

/-- A timestamp of fewer than a million minutes. -/
def InRange (ts : ℕ) : Prop := ts / 60000 < 10 ^ 6

theorem mem_stamp (h : c ∈ stamp ts) : c.isDigit ∨ c = ':' ∨ c = '.' := by
  simp only [stamp, List.mem_append, List.mem_cons] at h
  rcases h with h | rfl | h | rfl | h
  · exact .inl (isDigit_of_mem_padded h)
  · exact .inr (.inl rfl)
  · exact .inl (isDigit_of_mem_padded h)
  · exact .inr (.inr rfl)
  · exact .inl (isDigit_of_mem_padded h)

theorem asBytes_stamp : asBytes (stamp ts) =
    asBytes (padded 2 (ts / 60000)) ++ ':'.toNat :: (asBytes (padded 2 (ts / 1000 % 60)) ++
      '.'.toNat :: asBytes (padded 3 (ts % 1000))) := by
  rw [stamp, asBytes_append, asBytes_cons_of_ascii (by decide), asBytes_append,
    asBytes_cons_of_ascii (by decide)]

theorem length_asBytes_padded {w : ℕ} : (asBytes (padded w n)).length = (padded w n).length :=
  length_asBytes_of_digits fun _ => isDigit_of_mem_padded

theorem length_asBytes_seconds : (asBytes (padded 2 (ts / 1000 % 60))).length = 2 := by
  rw [length_asBytes_padded]
  apply length_padded_eq
  · have := Nat.mod_lt (ts / 1000) (show 0 < 60 by decide)
    omega
  · decide

theorem length_asBytes_millis : (asBytes (padded 3 (ts % 1000))).length = 3 := by
  rw [length_asBytes_padded]
  apply length_padded_eq
  · have := Nat.mod_lt ts (show 0 < 1000 by decide)
    omega
  · decide

theorem length_asBytes_stamp (h : InRange ts) :
    5 ≤ (asBytes (stamp ts)).length ∧ (asBytes (stamp ts)).length ≤ 13 := by
  have hminutes : (asBytes (padded 2 (ts / 60000))).length ≤ 6 := by
    rw [length_asBytes_padded]
    exact length_padded_le h (by decide) (by decide)
  rw [asBytes_stamp]
  simp only [List.length_append, List.length_cons, length_asBytes_seconds, length_asBytes_millis]
  omega

/-- The three parts of a timestamp, each as digits that parse. -/
theorem parseTimestamp_parts {minutes seconds millis : List ℕ} {x y z : ℕ}
    (hm : ':'.toNat ∉ minutes) (hs : seconds.length = 2) (hk : millis.length = 3)
    (hx : A.parse minutes = some x) (hy : A.parse seconds = some y)
    (hz : A.parse millis = some z) :
    parseTimestamp A (minutes ++ ':'.toNat :: (seconds ++ '.'.toNat :: millis)) =
      some (x * 60000 + y * 1000 + z) := by
  have hpos : findCharIndex ':' (minutes ++ ':'.toNat :: (seconds ++ '.'.toNat :: millis)) =
      some minutes.length := position_split _ _ hm
  have hdrop : (minutes ++ ':'.toNat :: (seconds ++ '.'.toNat :: millis)).drop
      (minutes.length + 1) = seconds ++ '.'.toNat :: millis := by simp
  -- two digits, a full stop and three digits, which is the branch for six bytes
  have hlen : (seconds ++ '.'.toNat :: millis).length = 6 := by simp [hs, hk]
  have htake : (seconds ++ '.'.toNat :: millis).take 2 = seconds := by
    rw [← hs]
    exact List.take_left
  have hrest : (seconds ++ '.'.toNat :: millis).drop 3 = millis := by
    rw [show 3 = seconds.length + 1 by omega]
    simp
  simp only [parseTimestamp, hpos, Option.bind_some, List.take_left, hdrop, hlen, htake, hrest, hx,
    hy, hz, Option.map_some, Nat.mul_one]

theorem parseTimestamp_stamp (h : InRange ts) :
    parseTimestamp A (asBytes (stamp ts)) = some ts := by
  have hcolon : ':'.toNat ∉ asBytes (padded 2 (ts / 60000)) := by
    rw [mem_asBytes_iff (by decide)]
    exact not_mem_of_digits (fun _ => isDigit_of_mem_padded) rfl
  have hminutes : ts / 60000 < 10 ^ 10 := Nat.lt_trans h (by decide)
  have hseconds : ts / 1000 % 60 < 10 ^ 10 := by
    have := Nat.mod_lt (ts / 1000) (show 0 < 60 by decide)
    omega
  have hmillis : ts % 1000 < 10 ^ 10 := by
    have := Nat.mod_lt ts (show 0 < 1000 by decide)
    omega
  rw [asBytes_stamp, parseTimestamp_parts hcolon length_asBytes_seconds length_asBytes_millis
    (parse_padded hminutes (by decide)) (parse_padded hseconds (by decide))
    (parse_padded hmillis (by decide))]
  congr 1
  omega

/-- The bracket is found where it closes a tag of at most thirteen bytes. -/
theorem find_window (hx : c.toNat ∉ xs.drop 5) (hle : 5 ≤ xs.length) (hlt : xs.length ≤ 13) :
    findCharIndex c (window (xs ++ c.toNat :: ys)) = some (xs.length - 5) := by
  have hdrop : ∀ zs : List ℕ, (xs ++ zs).drop 5 = xs.drop 5 ++ zs := fun zs =>
    List.drop_append_of_le_length hle
  unfold window findCharIndex
  split_ifs
  · obtain ⟨k, hk⟩ : ∃ k, 14 = xs.length + 1 + k := ⟨13 - xs.length, by omega⟩
    have htake : (xs ++ c.toNat :: ys).take 14 = xs ++ c.toNat :: ys.take k := by
      rw [hk, Nat.add_assoc, Nat.add_comm 1 k, List.take_length_add_append]
      rfl
    rw [htake, hdrop, position_split _ _ hx, List.length_drop]
  · rw [hdrop, position_split _ _ hx, List.length_drop]

/-- It is not found behind a longer one. -/
theorem find_window_none (hx : c.toNat ∉ xs) (hlen : 14 ≤ xs.length) :
    findCharIndex c (window (xs ++ c.toNat :: ys)) = none := by
  have hlong : (xs ++ c.toNat :: ys).length > 14 := by
    rw [List.length_append, List.length_cons]
    omega
  rw [window, if_pos hlong, List.take_append_of_le_length hlen]
  apply position_eq_none
  intro h
  exact hx (List.mem_of_mem_take (List.mem_of_mem_drop h))

theorem bracket_not_mem_stamp : ']'.toNat ∉ asBytes (stamp ts) := by
  rw [mem_asBytes_iff (by decide)]
  intro h
  have := mem_stamp h
  revert this
  decide

/-- What the loop sees at a tag that was printed. -/
theorem rest_of_display {tail : Str}
    (hdrop : bytes.drop cursor = asBytes (displayTimestamp ts ++ tail)) :
    bytes[cursor]? = some '['.toNat ∧
      bytes.drop (cursor + 1) = asBytes (stamp ts) ++ ']'.toNat :: asBytes tail := by
  have hbytes : asBytes (displayTimestamp ts ++ tail) =
      '['.toNat :: (asBytes (stamp ts) ++ ']'.toNat :: asBytes tail) := by
    simp [displayTimestamp_eq, asBytes_append, asBytes_cons_of_ascii]
  constructor
  · rw [← List.head?_drop, hdrop, hbytes]
    rfl
  · rw [← List.tail_drop, hdrop, hbytes]
    rfl

/-- A million minutes take seven digits, and the bracket is behind all that is searched. -/
theorem parseTags_long {tail : Str} (hts : ¬InRange ts)
    (hdrop : bytes.drop cursor = asBytes (displayTimestamp ts ++ tail)) :
    parseTags A bytes (fuel + 1) acc cursor = .error (.error .MissingBrackets) := by
  obtain ⟨hhead, hrest⟩ := rest_of_display hdrop
  have hminutes : 7 ≤ (asBytes (padded 2 (ts / 60000))).length := by
    rw [length_asBytes_padded, length_padded]
    have hdigits : ¬(Nat.toDigits 10 (ts / 60000)).length ≤ 6 := by
      rwa [Nat.length_toDigits_le_iff (by decide) (by decide)]
    omega
  -- seven digits, a colon, two digits, a full stop and three digits
  have hlen : 14 ≤ (asBytes (stamp ts)).length := by
    rw [asBytes_stamp]
    simp only [List.length_append, List.length_cons, length_asBytes_seconds, length_asBytes_millis]
    omega
  have hlong : ¬(asBytes (stamp ts) ++ ']'.toNat :: asBytes tail).length < 5 := by
    rw [List.length_append]
    omega
  rw [parseTags, if_pos hhead]
  simp only [hrest, if_neg hlong, find_window_none bracket_not_mem_stamp hlen]

theorem parseTags_step {tail : Str} (hts : InRange ts)
    (hdrop : bytes.drop cursor = asBytes (displayTimestamp ts ++ tail)) :
    parseTags A bytes (fuel + 1) acc cursor =
      parseTags A bytes fuel (acc ++ [ts]) (cursor + (asBytes (displayTimestamp ts)).length) := by
  obtain ⟨hhead, hrest⟩ := rest_of_display hdrop
  obtain ⟨hle, hlt⟩ := length_asBytes_stamp hts
  have hlong : ¬(asBytes (stamp ts) ++ ']'.toNat :: asBytes tail).length < 5 := by
    rw [List.length_append]
    omega
  have hclosing : (asBytes (stamp ts)).length - 5 + 5 = (asBytes (stamp ts)).length := by omega
  have hlen : (asBytes (displayTimestamp ts)).length = (asBytes (stamp ts)).length + 2 := by
    simp [displayTimestamp_eq, asBytes_append, asBytes_cons_of_ascii, asBytes_nil]
  have hbracket : ']'.toNat ∉ (asBytes (stamp ts)).drop 5 := fun h =>
    bracket_not_mem_stamp (List.mem_of_mem_drop h)
  rw [parseTags, if_pos hhead]
  simp only [hrest, if_neg hlong, find_window hbracket hle hlt, hclosing,
    List.take_left, parseTimestamp_stamp hts, hlen]

theorem drop_of_drop (hdrop : bytes.drop cursor = asBytes (s ++ text)) :
    bytes.drop (cursor + (asBytes s).length) = asBytes text := by
  rw [← List.drop_drop, hdrop, asBytes_append, List.drop_left]

theorem parseTags_display (hts : ∀ ts ∈ timestamps, InRange ts) (htext : text.head? ≠ some '[')
    (hdrop : bytes.drop cursor = asBytes (timestamps.flatMap displayTimestamp ++ text))
    (hfuel : timestamps.length ≤ fuel) :
    parseTags A bytes fuel acc cursor = .ok (acc ++ timestamps,
      cursor + (asBytes (timestamps.flatMap displayTimestamp)).length) := by
  induction timestamps generalizing fuel acc cursor with
  | nil =>
    have hhead : bytes[cursor]? ≠ some '['.toNat := by
      rw [← List.head?_drop, hdrop, List.flatMap_nil, List.nil_append]
      intro h
      obtain ⟨c, hc, heq⟩ := (head?_asBytes_iff (by decide)).mp h
      exact htext (Char.toNat_inj.mp heq ▸ hc)
    cases fuel with
    | zero => simp [parseTags, asBytes_nil]
    | succ fuel =>
      rw [parseTags, if_neg hhead]
      simp [asBytes_nil]
  | cons t timestamps ih =>
    cases fuel with
    | zero => cases hfuel
    | succ fuel =>
      rw [List.flatMap_cons, List.append_assoc] at hdrop
      rw [parseTags_step (hts t List.mem_cons_self) hdrop,
        ih (fun ts h => hts ts (List.mem_cons_of_mem t h)) (drop_of_drop hdrop)
          (Nat.le_of_succ_le_succ hfuel)]
      simp [asBytes_append, Nat.add_assoc]

/-- Tags that were printed and are all parsed are in range. -/
theorem inRange_of_parseTags {r : List ℕ × ℕ}
    (hdrop : bytes.drop cursor = asBytes (timestamps.flatMap displayTimestamp ++ text))
    (hfuel : timestamps.length ≤ fuel) (h : parseTags A bytes fuel acc cursor = .ok r) :
    ∀ ts ∈ timestamps, InRange ts := by
  induction timestamps generalizing fuel acc cursor with
  | nil => exact nofun
  | cons t timestamps ih =>
    cases fuel with
    | zero => cases hfuel
    | succ fuel =>
      rw [List.flatMap_cons, List.append_assoc] at hdrop
      by_cases ht : InRange t
      · rw [parseTags_step ht hdrop] at h
        have htail := ih (drop_of_drop hdrop) (Nat.le_of_succ_le_succ hfuel) h
        exact List.forall_mem_cons.mpr ⟨ht, htail⟩
      · rw [parseTags_long ht hdrop] at h
        cases h

/-- The loop stops where no tag begins. -/
theorem parseTags_stops {timestamps : List ℕ} (hfuel : bytes.length ≤ cursor + fuel)
    (h : parseTags A bytes fuel acc cursor = .ok (timestamps, n)) : bytes[n]? ≠ some '['.toNat := by
  induction fuel generalizing acc cursor with
  | zero =>
    cases h
    have hnone : bytes[n]? = none := List.getElem?_eq_none hfuel
    rw [hnone]
    exact nofun
  | succ fuel ih =>
    rw [parseTags] at h
    split_ifs at h with hhead
    · simp only at h
      split_ifs at h
      split at h
      · cases h
      · split at h
        · cases h
        · exact ih (by omega) h
    · cases h
      exact hhead

/-- The text of a line of lyrics is what its tags leave of the line. -/
theorem parseLyricLine_spec {l : Line} (h : parseLyricLine A line = .ok (some l)) :
    l.timestamps ≠ [] ∧ l.text.head? ≠ some '[' ∧ ∃ tags, line = tags ++ l.text := by
  unfold parseLyricLine at h
  cases htags : parseTags A (asBytes line) (asBytes line).length [] 0 with
  | error e =>
    simp [htags, Except.bind] at h
  | ok r =>
    obtain ⟨timestamps, n⟩ := r
    simp only [htags, Except.bind] at h
    split_ifs at h with hempty
    · cases h
    · cases htext : sliceFrom line n with
      | none =>
        rw [htext] at h
        cases h
      | some text =>
        rw [htext] at h
        cases h
        obtain ⟨tags, rfl, hlen⟩ := append_of_sliceFrom htext
        refine ⟨by simpa using hempty, ?_, tags, rfl⟩
        intro hbracket
        have hstop := parseTags_stops (Nat.le_add_left ..) htags
        rw [← List.head?_drop, asBytes_append, ← hlen, List.drop_left] at hstop
        exact hstop ((head?_asBytes_iff (by decide)).mpr ⟨'[', hbracket, rfl⟩)

theorem length_le_asBytes_display (timestamps : List ℕ) :
    timestamps.length ≤ (asBytes (timestamps.flatMap displayTimestamp)).length := by
  induction timestamps with
  | nil => exact Nat.zero_le _
  | cons t timestamps ih =>
    rw [List.flatMap_cons, asBytes_append, displayTimestamp_eq, asBytes_cons_of_ascii (by decide)]
    simp only [List.length_append, List.length_cons]
    omega

theorem length_le_asBytes_line (text : Str) (timestamps : List ℕ) :
    timestamps.length ≤ (asBytes (timestamps.flatMap displayTimestamp ++ text)).length := by
  rw [asBytes_append, List.length_append]
  exact Nat.le_add_right_of_le (length_le_asBytes_display timestamps)

theorem parseLyricLine_display {l : Line} (hne : l.timestamps ≠ [])
    (hts : ∀ ts ∈ l.timestamps, InRange ts) (htext : l.text.head? ≠ some '[') :
    parseLyricLine A (l.timestamps.flatMap displayTimestamp ++ l.text) = .ok (some l) := by
  have hlen := length_le_asBytes_line l.text l.timestamps
  have htags : parseTags A (asBytes (l.timestamps.flatMap displayTimestamp ++ l.text)) _ [] 0 = _ :=
    parseTags_display hts htext rfl hlen
  unfold parseLyricLine
  simp only [htags, Except.bind, List.nil_append, Nat.zero_add, List.isEmpty_iff, hne, if_false,
    sliceFrom_append, slice, Except.map, Option.elim_some]

theorem inRange_of_parseLyricLine {l : Line} {r : Option Line}
    (h : parseLyricLine A (l.timestamps.flatMap displayTimestamp ++ l.text) = .ok r) :
    ∀ ts ∈ l.timestamps, InRange ts := by
  unfold parseLyricLine at h
  cases htags : parseTags A (asBytes (l.timestamps.flatMap displayTimestamp ++ l.text))
      (asBytes (l.timestamps.flatMap displayTimestamp ++ l.text)).length [] 0 with
  | error e =>
    simp only [htags] at h
    cases h
  | ok r =>
    have hdrop : (asBytes (l.timestamps.flatMap displayTimestamp ++ l.text)).drop 0 =
        asBytes (l.timestamps.flatMap displayTimestamp ++ l.text) := rfl
    exact inRange_of_parseTags hdrop (length_le_asBytes_line l.text l.timestamps) htags

end Thcdb.Lrc
