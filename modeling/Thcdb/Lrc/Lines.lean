import Thcdb.Lrc.Tags

namespace Thcdb.Lrc
open Text Lyrics

/-- Metadata that can be printed. -/
structure MetaWf (key value : Str) : Prop where
  key_ne : key ≠ []
  key_digit : key.head?.any Char.isDigit = false
  key_colon : ':' ∉ key
  key_break : '\n' ∉ key
  key_start : key.head? ≠ some ' '
  key_stop : key.getLast? ≠ some ' '
  value_ne : value ≠ []
  value_bracket : ']' ∉ value
  value_break : '\n' ∉ value
  value_start : value.head? ≠ some ' '
  value_stop : value.getLast? ≠ some ' '

/-- Metadata that is parsed; the last bracket need not end the line. -/
structure MetaLine (line key value : Str) : Prop where
  text : ∃ tail, line = '[' :: (key ++ ':' :: (value ++ ']' :: tail))
  key_ne : key ≠ []
  key_digit : key.head?.any Char.isDigit = false
  key_colon : ':' ∉ key
  key_start : key.head? ≠ some ' '
  key_stop : key.getLast? ≠ some ' '
  value_ne : value ≠ []
  value_bracket : ']' ∉ value
  value_start : value.head? ≠ some ' '
  value_stop : value.getLast? ≠ some ' '

/-- Lines that can be printed, whatever their timestamps. -/
structure LineWf (line : Line) : Prop where
  timestamps_ne : line.timestamps ≠ []
  text_break : '\n' ∉ line.text
  text_start : line.text.head? ≠ some '['
  text_stop : line.text.getLast?.any isWhitespace = false

variable {A : Atoi} {key value rest s t line : Str} {c : Char} {typed : TypedLine}
  {result : Option TypedLine}

theorem head?_asBytes_eq_iff (hc : c.toNat < 0x80) :
    (asBytes s).head? = some c.toNat ↔ s.head? = some c := by
  rw [head?_asBytes_iff hc]
  constructor
  · rintro ⟨d, hd, heq⟩
    rwa [← Char.toNat_inj.mp heq]
  · intro h
    exact ⟨c, h, rfl⟩

theorem getLast?_asBytes_eq_iff (hc : c.toNat < 0x80) :
    (asBytes s).getLast? = some c.toNat ↔ s.getLast? = some c := by
  rw [getLast?_asBytes_iff hc]
  constructor
  · rintro ⟨d, hd, heq⟩
    rwa [← Char.toNat_inj.mp heq]
  · intro h
    exact ⟨c, h, rfl⟩

theorem isAsciiDigit_head {b : ℕ} (h : (asBytes s).head? = some b) :
    isAsciiDigit b = s.head?.any Char.isDigit := by
  cases s with
  | nil => cases h
  | cons c s =>
    rw [asBytes_cons, List.head?_append_of_ne_nil _ (utf8_ne_nil c)] at h
    change isAsciiDigit b = c.isDigit
    rw [Bool.eq_iff_iff]
    simp only [isAsciiDigit, Char.isDigit, Bool.and_eq_true, decide_eq_true_eq, ge_iff_le,
      UInt32.le_iff_toNat_le]
    change _ ↔ 48 ≤ c.toNat ∧ c.toNat ≤ 57
    unfold utf8 at h
    dsimp only at h
    split_ifs at h <;> simp only [List.head?_cons, Option.some.injEq] at h <;> omega

/-- What a line is, once its first colon is found. -/
theorem parseLine_colon (hkey : ':' ∉ key) :
    parseLine A ('[' :: (key ++ ':' :: rest)) =
      if key = [] then .error (.error .InvalidTag)
      else if key.head?.any Char.isDigit then
        (parseLyricLine A ('[' :: (key ++ ':' :: rest))).map fun l => l.map TypedLine.Lyric
      else if key.head? = some ' ' ∨ key.getLast? = some ' ' then .error (.error .InvalidTag)
      else if rest.head? = some ' ' then .error (.error .InvalidMetadata)
      else
        match memchr ']' (asBytes rest) with
        | none => .error (.error .InvalidMetadata)
        | some stop =>
          if (asBytes rest).take stop = [] ∨ ((asBytes rest).take stop).getLast? = some ' '.toNat then
            .error (.error .InvalidMetadata)
          else (slice (sliceTo rest stop)).map fun value => some (.Meta key value) := by
  have hbytes : asBytes ('[' :: (key ++ ':' :: rest)) =
      '['.toNat :: (asBytes key ++ ':'.toNat :: asBytes rest) := by
    simp [asBytes_append, asBytes_cons_of_ascii]
  have hcolon : findCharIndex ':' (asBytes key ++ ':'.toNat :: asBytes rest) =
      some (asBytes key).length :=
    position_split _ _ (mt (mem_asBytes_iff (by decide)).mp hkey)
  have htake : ('['.toNat :: (asBytes key ++ ':'.toNat :: asBytes rest)).take
      ((asBytes key).length + 1) = '['.toNat :: asBytes key := by simp
  -- the slices are at byte positions, and fall between characters
  have hrest : sliceFrom ('[' :: (key ++ ':' :: rest)) ((asBytes key).length + 1 + 1) =
      some rest := by
    have hlen : (asBytes ('[' :: key ++ [':'])).length = (asBytes key).length + 1 + 1 := by
      simp [asBytes_append, asBytes_cons_of_ascii, asBytes_nil]
    rw [← hlen, show '[' :: (key ++ ':' :: rest) = ('[' :: key ++ [':']) ++ rest by simp]
    exact sliceFrom_append _ _
  have hslice : (sliceTo ('[' :: (key ++ ':' :: rest)) ((asBytes key).length + 1)).bind
      (fun s => sliceFrom s 1) = some key := by
    have hlen : (asBytes ('[' :: key)).length = (asBytes key).length + 1 := by
      simp [asBytes_cons_of_ascii]
    have hone : (asBytes ['[']).length = 1 := rfl
    rw [← hlen, show '[' :: (key ++ ':' :: rest) = ('[' :: key) ++ ':' :: rest by simp,
      sliceTo_append, Option.bind_some, ← hone]
    exact sliceFrom_append ['['] key
  simp only [parseLine, hbytes, List.head?_cons, slice, Option.elim_some, Except.bind,
    List.drop_one, List.tail_cons, hcolon, htake, hrest, hslice, ne_eq, not_true_eq_false, if_false]
  -- the checks on the first and last byte of the key are checks on its characters
  cases hb : (asBytes key).head? with
  | none =>
    have hnil : key = [] := asBytes_eq_nil_iff.mp (List.head?_eq_none_iff.mp hb)
    rw [if_pos hnil]
  | some b =>
    have hne : key ≠ [] := by
      rintro rfl
      cases hb
    have hspace : some b = some ' '.toNat ∨ (asBytes key).getLast? = some ' '.toNat ↔
        key.head? = some ' ' ∨ key.getLast? = some ' ' := by
      rw [← hb]
      exact or_congr (head?_asBytes_eq_iff (by decide)) (getLast?_asBytes_eq_iff (by decide))
    rw [if_neg hne]
    exact if_congr (by rw [isAsciiDigit_head hb]) rfl (if_congr hspace rfl rfl)

/-- What follows the colon of metadata. -/
theorem parseLine_value {tail : Str} (hkey : ':' ∉ key)
    (hdigit : key.head?.any Char.isDigit = false) (hbracket : ']' ∉ value) :
    parseLine A ('[' :: (key ++ ':' :: (value ++ ']' :: tail))) =
      if key = [] then .error (.error .InvalidTag)
      else if key.head? = some ' ' ∨ key.getLast? = some ' ' then .error (.error .InvalidTag)
      else if (value ++ ']' :: tail).head? = some ' ' then .error (.error .InvalidMetadata)
      else if value = [] ∨ value.getLast? = some ' ' then .error (.error .InvalidMetadata)
      else .ok (some (.Meta key value)) := by
  have hbytes : asBytes (value ++ ']' :: tail) = asBytes value ++ ']'.toNat :: asBytes tail := by
    rw [asBytes_append, asBytes_cons_of_ascii (by decide)]
  have hstop : memchr ']' (asBytes (value ++ ']' :: tail)) = some (asBytes value).length := by
    rw [hbytes]
    exact position_split _ _ (mt (mem_asBytes_iff (by decide)).mp hbracket)
  have htake : (asBytes (value ++ ']' :: tail)).take (asBytes value).length = asBytes value := by
    rw [hbytes, List.take_left]
  have hvalue : asBytes value = [] ∨ (asBytes value).getLast? = some ' '.toNat ↔
      value = [] ∨ value.getLast? = some ' ' :=
    or_congr asBytes_eq_nil_iff (getLast?_asBytes_eq_iff (by decide))
  rw [parseLine_colon hkey, hdigit, if_neg Bool.false_ne_true]
  simp only [hstop, htake, if_congr hvalue rfl rfl, sliceTo_append, slice, Option.elim_some,
    Except.map]

theorem parseLine_of_metaLine (h : MetaLine line key value) :
    parseLine A line = .ok (some (.Meta key value)) := by
  obtain ⟨tail, rfl⟩ := h.text
  have hstart : (value ++ ']' :: tail).head? ≠ some ' ' := by
    rw [List.head?_append_of_ne_nil _ h.value_ne]
    exact h.value_start
  rw [parseLine_value h.key_colon h.key_digit h.value_bracket, if_neg h.key_ne,
    if_neg (not_or.mpr ⟨h.key_start, h.key_stop⟩), if_neg hstart,
    if_neg (not_or.mpr ⟨h.value_ne, h.value_stop⟩)]

theorem MetaWf.metaLine (h : MetaWf key value) :
    MetaLine ('[' :: (key ++ ':' :: (value ++ [']']))) key value :=
  { h with text := ⟨[], rfl⟩ }

/-- A line that begins with a printed tag is left to the loop over the tags. -/
theorem parseLine_tags {l : Line} (hne : l.timestamps ≠ []) :
    parseLine A (l.timestamps.flatMap displayTimestamp ++ l.text) =
      (parseLyricLine A (l.timestamps.flatMap displayTimestamp ++ l.text)).map
        fun l => l.map TypedLine.Lyric := by
  obtain ⟨t, timestamps, heq⟩ := List.exists_cons_of_ne_nil hne
  obtain ⟨rest, hrest⟩ : ∃ rest, l.timestamps.flatMap displayTimestamp ++ l.text =
      '[' :: (padded 2 (t / 60000) ++ ':' :: rest) := by
    rw [heq, List.flatMap_cons, displayTimestamp_eq, stamp]
    simp only [List.cons_append, List.append_assoc]
    exact ⟨_, rfl⟩
  have hcolon : ':' ∉ padded 2 (t / 60000) :=
    not_mem_of_digits (fun _ => isDigit_of_mem_padded) rfl
  have hdigit : (padded 2 (t / 60000)).head?.any Char.isDigit = true := by
    obtain ⟨c, cs, hc⟩ := List.exists_cons_of_ne_nil (padded_ne_nil (w := 2) (n := t / 60000))
    rw [hc]
    exact isDigit_of_mem_padded (hc ▸ List.mem_cons_self)
  rw [hrest, parseLine_colon hcolon, if_neg padded_ne_nil, hdigit, if_pos rfl]

theorem parseLine_lyric {l : Line} (h : LineWf l) (hts : ∀ ts ∈ l.timestamps, InRange ts) :
    parseLine A (l.timestamps.flatMap displayTimestamp ++ l.text) = .ok (some (.Lyric l)) := by
  rw [parseLine_tags h.timestamps_ne, parseLyricLine_display h.timestamps_ne hts h.text_start]
  rfl

theorem inRange_of_parseLine {l : Line} {typed : Option TypedLine} (h : LineWf l)
    (hok : parseLine A (l.timestamps.flatMap displayTimestamp ++ l.text) = .ok typed) :
    ∀ ts ∈ l.timestamps, InRange ts := by
  rw [parseLine_tags h.timestamps_ne] at hok
  cases hlyric : parseLyricLine A (l.timestamps.flatMap displayTimestamp ++ l.text) with
  | error e =>
    rw [hlyric] at hok
    cases hok
  | ok r => exact inRange_of_parseLyricLine hlyric

/-- Every line that says anything has a first colon behind its bracket. -/
theorem colon_of_parseLine (h : parseLine A line = .ok (some typed)) :
    ∃ key rest, line = '[' :: (key ++ ':' :: rest) ∧ ':' ∉ key := by
  unfold parseLine at h
  cases hb : (asBytes line).head? with
  | none =>
    simp only [hb] at h
    cases h
  | some first =>
    simp only [hb, slice, Option.elim_some, Except.bind] at h
    split_ifs at h with hfirst
    · cases h
    · rw [not_not] at hfirst
      rw [hfirst, head?_asBytes_eq_iff (by decide)] at hb
      obtain ⟨s, rfl⟩ : ∃ s, line = '[' :: s := List.head?_eq_some_iff.mp hb
      rw [asBytes_cons_of_ascii (by decide), List.drop_one, List.tail_cons] at h
      cases hi : findCharIndex ':' (asBytes s) with
      | none =>
        simp only [hi] at h
        cases h
      | some i =>
        obtain ⟨key, rest, rfl, hkey, -⟩ := (position_asBytes (by decide)).mp hi
        exact ⟨key, rest, rfl, hkey⟩

def TypedLine.Wf : TypedLine → Prop
  | .Meta key value => MetaWf key value
  | .Lyric l => LineWf l

/-- The text of a line of lyrics ends as the line does. -/
theorem lineWf_of_parseLyricLine {l : Line} (hbreak : '\n' ∉ line)
    (hstop : line.getLast?.any isWhitespace = false) (h : parseLyricLine A line = .ok (some l)) :
    LineWf l := by
  obtain ⟨hne, hstart, tags, rfl⟩ := parseLyricLine_spec h
  refine ⟨hne, fun hmem => hbreak (List.mem_append_right _ hmem), hstart, ?_⟩
  by_cases htext : l.text = []
  · rw [htext]
    rfl
  · rwa [List.getLast?_append_of_ne_nil _ htext] at hstop

/-- A key that does not begin with a digit is followed by a value, if the line is taken. -/
theorem metaLine_of_parseLine_colon (hkey : ':' ∉ key) (hdigit : ¬key.head?.any Char.isDigit)
    (h : parseLine A ('[' :: (key ++ ':' :: rest)) = .ok result) :
    ∃ value, result = some (.Meta key value) ∧
      MetaLine ('[' :: (key ++ ':' :: rest)) key value := by
  by_cases hbracket : ']' ∈ rest
  · obtain ⟨value, tail, rfl, hvalue⟩ := List.eq_append_cons_of_mem hbracket
    rw [parseLine_value hkey (Bool.eq_false_iff.mpr hdigit) hvalue] at h
    split_ifs at h with hne hspace hstart hstop
    cases h
    rw [not_or] at hspace hstop
    rw [List.head?_append_of_ne_nil _ hstop.1] at hstart
    exact ⟨value, rfl,
      { text := ⟨tail, rfl⟩
        key_ne := hne
        key_digit := Bool.eq_false_iff.mpr hdigit
        key_colon := hkey
        key_start := hspace.1
        key_stop := hspace.2
        value_ne := hstop.1
        value_bracket := hvalue
        value_start := hstart
        value_stop := hstop.2 }⟩
  · have hnone : memchr ']' (asBytes rest) = none :=
      position_eq_none (mt (mem_asBytes_iff (by decide)).mp hbracket)
    rw [parseLine_colon hkey] at h
    split_ifs at h
    rw [hnone] at h
    cases h

/-- A line that is taken is metadata, or is left to the loop over the tags. -/
theorem parseLine_some (h : parseLine A line = .ok (some typed)) :
    (∃ key value, typed = .Meta key value ∧ MetaLine line key value) ∨
      ∃ l, typed = .Lyric l ∧ parseLyricLine A line = .ok (some l) := by
  obtain ⟨key, rest, rfl, hkey⟩ := colon_of_parseLine h
  by_cases hdigit : key.head?.any Char.isDigit
  · rw [parseLine_colon hkey, if_pos hdigit] at h
    split_ifs at h
    cases hl : parseLyricLine A ('[' :: (key ++ ':' :: rest)) with
    | error e =>
      rw [hl] at h
      cases h
    | ok r =>
      rw [hl] at h
      obtain ⟨l, rfl, rfl⟩ := Option.map_eq_some_iff.mp (Except.ok.inj h)
      exact .inr ⟨l, rfl, rfl⟩
  · obtain ⟨value, htyped, hmeta⟩ := metaLine_of_parseLine_colon hkey hdigit h
    exact .inl ⟨key, value, Option.some.inj htyped, hmeta⟩

theorem wf_of_parseLine (hbreak : '\n' ∉ line) (hstop : line.getLast?.any isWhitespace = false)
    (h : parseLine A line = .ok (some typed)) : typed.Wf := by
  rcases parseLine_some h with ⟨key, value, rfl, hmeta⟩ | ⟨l, rfl, hl⟩
  · obtain ⟨tail, rfl⟩ := hmeta.text
    exact
      { hmeta with
        key_break := fun hmem => hbreak (by simp [hmem])
        value_break := fun hmem => hbreak (by simp [hmem]) }
  · exact lineWf_of_parseLyricLine hbreak hstop hl

end Thcdb.Lrc
