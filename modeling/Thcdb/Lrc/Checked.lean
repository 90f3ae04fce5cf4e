import Thcdb.Lrc.RoundTrip

namespace Thcdb.Lrc
open Text

def USIZE_MAX : ℕ := 2 ^ 64 - 1

def ISIZE_MAX : ℕ := 2 ^ 63 - 1

/-- A `&str`, which never takes more than `isize::MAX` bytes. -/
structure Content where
  text : Str
  fits : (asBytes text).length ≤ ISIZE_MAX

/-- `atoi_simd` takes nothing but digits, and nothing that overflows. -/
structure Atoi.Strict (A : Atoi) : Prop where
  digits : ∀ bytes n, A.parse bytes = some n → bytes ≠ [] ∧ ∀ b ∈ bytes, isAsciiDigit b
  value : ∀ bytes n, A.parse bytes = some n → n < 10 ^ bytes.length ∧ n ≤ USIZE_MAX

namespace Checked
variable {ε : Type}

def index (bytes : List ℕ) (i : ℕ) : Except (Failure ε) ℕ := slice bytes[i]?

def bytesFrom (bytes : List ℕ) (i : ℕ) : Except (Failure ε) (List ℕ) :=
  if i ≤ bytes.length then .ok (bytes.drop i) else .error .panic

def bytesTo (bytes : List ℕ) (j : ℕ) : Except (Failure ε) (List ℕ) :=
  if j ≤ bytes.length then .ok (bytes.take j) else .error .panic

def bytesRange (bytes : List ℕ) (i j : ℕ) : Except (Failure ε) (List ℕ) :=
  if i ≤ j ∧ j ≤ bytes.length then .ok ((bytes.take j).drop i) else .error .panic

def textRange (s : Str) (i j : ℕ) : Except (Failure ε) Str :=
  if i ≤ j then slice ((sliceTo s j).bind fun s => sliceFrom s i) else .error .panic

/-- A result of the arithmetic of 64 bits. -/
def usize (n : ℕ) : Except (Failure ε) ℕ := if n ≤ USIZE_MAX then .ok n else .error .panic

def okOr {α : Type} (e : ε) (o : Option α) : Except (Failure ε) α := o.elim (.error (.error e)) .ok

section
variable (A : Atoi)

/-- The error is `None`. -/
def fraction (secAndMilliStr : List ℕ) (scale : ℕ) : Except (Failure Unit) (ℕ × ℕ) := do
  let seconds ← okOr () (A.parse (← bytesTo secAndMilliStr 2))
  let millis ← okOr () (A.parse (← bytesFrom secAndMilliStr 3))
  return (seconds, ← usize (millis * scale))

def secondsAndMillis (secAndMilliStr : List ℕ) : Except (Failure Unit) (ℕ × ℕ) :=
  match secAndMilliStr.length with
  | 2 => (okOr () (A.parse secAndMilliStr)).map fun seconds => (seconds, 0)
  | 4 => fraction A secAndMilliStr 100
  | 5 => fraction A secAndMilliStr 10
  | 6 => fraction A secAndMilliStr 1
  | _ => .error (.error ())

def parseTimestamp (bytes : List ℕ) : Except (Failure Unit) ℕ := do
  let colonIdx ← okOr () (findCharIndex ':' bytes)
  let minStr ← bytesTo bytes colonIdx
  let secAndMilliStr ← bytesFrom bytes (← usize (colonIdx + 1))
  let minutes ← okOr () (A.parse minStr)
  let (seconds, millis) ← secondsAndMillis A secAndMilliStr
  let ms ← usize ((← usize (minutes * 60000)) + (← usize (seconds * 1000)))
  usize (ms + millis)

def searched (rest : List ℕ) : Except (Failure ErrorKind) (List ℕ) :=
  if rest.length > 14 then bytesRange rest 5 14 else bytesFrom rest 5

def parseTags (bytes : List ℕ) : ℕ → List ℕ → ℕ → Except (Failure ErrorKind) (List ℕ × ℕ)
  | 0, timestamps, cursor => .ok (timestamps, cursor)
  | fuel + 1, timestamps, cursor => do
    if cursor < bytes.length then
      if (← index bytes cursor) = '['.toNat then
        let rest ← bytesFrom bytes (← usize (cursor + 1))
        let closing ← okOr .MissingBrackets (findCharIndex ']' (← searched rest))
        let timestampStr ← bytesTo rest (← usize (closing + 5))
        let timestampMs ← (parseTimestamp A timestampStr).mapError
          (Failure.map fun _ => ErrorKind.InvalidTimestamp)
        let past ← usize ((← usize (closing + 5)) + 2)
        parseTags bytes fuel (timestamps ++ [timestampMs]) (← usize (cursor + past))
      else return (timestamps, cursor)
    else return (timestamps, cursor)

def parseLyricLine (line : Str) : Except (Failure ErrorKind) (Option Line) := do
  let bytes := asBytes line
  let (timestamps, cursor) ← parseTags A bytes bytes.length [] 0
  if timestamps.isEmpty then return none
  let text ← slice (sliceFrom line cursor)
  return some ⟨timestamps, text⟩

def parseLine (line : Str) : Except (Failure ErrorKind) (Option TypedLine) := do
  let bytes := asBytes line
  if (← index bytes 0) ≠ '['.toNat then return none
  let i ← okOr .InvalidTag (findCharIndex ':' (← bytesFrom bytes 1))
  let colonPos ← usize (i + 1)
  let key ← bytesRange bytes 1 colonPos
  if key.isEmpty then .error (.error .InvalidTag)
  else if isAsciiDigit (← index key 0) then
    return (← parseLyricLine A line).map TypedLine.Lyric
  else if key.head? = some ' '.toNat ∨ key.getLast? = some ' '.toNat then
    .error (.error .InvalidTag)
  else
    let rest ← slice (sliceFrom line (← usize (colonPos + 1)))
    if rest.head? = some ' ' then .error (.error .InvalidMetadata)
    else
      let stop ← okOr .InvalidMetadata (memchr ']' (asBytes rest))
      let value ← bytesTo (asBytes rest) stop
      if value = [] ∨ value.getLast? = some ' '.toNat then .error (.error .InvalidMetadata)
      else
        let key ← textRange line 1 colonPos
        let value ← slice (sliceTo rest stop)
        return some (.Meta key value)

def lineBreakIdxes (content : Str) : List ℕ := (asBytes content).findIdxs (· = '\n'.toNat)

def scanLine (content : Str) (st : Scan × ℕ) (lineBreak : ℕ × ℕ) :
    Except (Failure Error) (Scan × ℕ) := do
  let (lineBreakIdx, i) := lineBreak
  let line := trim (← textRange content st.2 lineBreakIdx)
  let currIdx ← usize (lineBreakIdx + 1)
  if line.isEmpty ∨ line.head? = some '#' then return (st.1, currIdx)
  let error (kind : ErrorKind) : Error := ⟨i + 1, kind⟩
  match ← (parseLine A line).mapError (Failure.map error) with
  | none => return (st.1, currIdx)
  | some (.Meta key value) =>
    if st.1.inMetadata then
      return ({ st.1 with metadata := st.1.metadata.insert key value }, currIdx)
    else .error (.error (error .MetadataAfterLyrics))
  | some (.Lyric line) =>
    return ({ st.1 with inMetadata := false, lines := st.1.lines ++ [line] }, currIdx)

def parse (content : Content) : Except (Failure Error) Lyrics := do
  let (st, _) ← (lineBreakIdxes content.text).zipIdx.foldlM (scanLine A content.text)
    (Scan.start, 0)
  return ⟨st.metadata, st.lines⟩

end

variable {A : Atoi} {bytes acc : List ℕ} {i j n cursor fuel : ℕ}

theorem ok_bind {α β : Type} {a : α} {f : α → Except (Failure ε) β} :
    (Except.ok a >>= f) = f a := rfl

theorem usize_ok (h : n ≤ USIZE_MAX) : usize n = (.ok n : Except (Failure ε) ℕ) := if_pos h

/-- A position in a text, or a little behind its end. -/
theorem le_usize_max {length : ℕ} (hlength : length ≤ ISIZE_MAX) (h : n ≤ length + 15) :
    n ≤ USIZE_MAX := by
  unfold ISIZE_MAX at hlength
  unfold USIZE_MAX
  omega

theorem bytesFrom_ok (h : i ≤ bytes.length) :
    bytesFrom bytes i = (.ok (bytes.drop i) : Except (Failure ε) _) := if_pos h

theorem bytesTo_ok (h : j ≤ bytes.length) :
    bytesTo bytes j = (.ok (bytes.take j) : Except (Failure ε) _) := if_pos h

theorem bytesRange_ok (hi : i ≤ j) (hj : j ≤ bytes.length) :
    bytesRange bytes i j = (.ok ((bytes.take j).drop i) : Except (Failure ε) _) := if_pos ⟨hi, hj⟩

theorem index_ok (h : i < bytes.length) :
    index bytes i = (.ok bytes[i] : Except (Failure ε) ℕ) := by
  rw [index, List.getElem?_eq_getElem h]
  rfl

theorem index_zero : index bytes 0 = (slice bytes.head? : Except (Failure ε) ℕ) := by
  rw [index, List.head?_eq_getElem?]

theorem okOr_some {α : Type} {e : ε} {a : α} : okOr e (some a) = .ok a := rfl

theorem findCharIndex_lt {c : Char} (h : findCharIndex c bytes = some i) : i < bytes.length := by
  obtain ⟨hlt, -⟩ := List.findIdx?_eq_some_iff_getElem.mp h
  exact hlt

theorem Strict.parse_le (hA : A.Strict) (hparse : A.parse bytes = some n)
    (hlen : bytes.length ≤ i) : n ≤ 10 ^ i :=
  (hA.value bytes n hparse).1.le.trans (Nat.pow_le_pow_right (by decide) hlen)

/-- The seconds are two digits, and a fraction has three of them at most. -/
theorem fraction_eq (hA : A.Strict) {scale : ℕ} (hscale : scale ≤ 100) (hle : 3 ≤ bytes.length)
    (hlen : bytes.length ≤ 6) :
    fraction A bytes scale = okOr () ((A.parse (bytes.take 2)).bind fun seconds =>
      (A.parse (bytes.drop 3)).map fun millis => (seconds, millis * scale)) := by
  unfold fraction
  rw [bytesTo_ok (by omega), bytesFrom_ok hle]
  simp only [ok_bind]
  cases hseconds : A.parse (bytes.take 2) with
  | none => rfl
  | some seconds =>
    simp only [okOr_some, ok_bind, Option.bind_some]
    cases hmillis : A.parse (bytes.drop 3) with
    | none => rfl
    | some millis =>
      have hbound : millis ≤ 10 ^ 3 := Strict.parse_le hA hmillis (by
        rw [List.length_drop]
        omega)
      have hprod : millis * scale ≤ 10 ^ 3 * 100 := Nat.mul_le_mul hbound hscale
      have hfits : millis * scale ≤ USIZE_MAX := hprod.trans (by decide)
      simp only [okOr_some, ok_bind, usize_ok hfits]
      rfl

def parts (A : Atoi) (secAndMilliStr : List ℕ) : Option (ℕ × ℕ) :=
  let fraction (scale : ℕ) : Option (ℕ × ℕ) :=
    (A.parse (secAndMilliStr.take 2)).bind fun seconds =>
      (A.parse (secAndMilliStr.drop 3)).map fun millis => (seconds, millis * scale)
  match secAndMilliStr.length with
  | 2 => (A.parse secAndMilliStr).map fun seconds => (seconds, 0)
  | 4 => fraction 100
  | 5 => fraction 10
  | 6 => fraction 1
  | _ => none

theorem parseTimestamp_eq_parts : Lrc.parseTimestamp A bytes =
    (findCharIndex ':' bytes).bind fun colonIdx =>
      (A.parse (bytes.take colonIdx)).bind fun minutes =>
        (parts A (bytes.drop (colonIdx + 1))).map fun p => minutes * 60000 + p.1 * 1000 + p.2 := rfl

theorem secondsAndMillis_eq (hA : A.Strict) :
    secondsAndMillis A bytes = okOr () (parts A bytes) := by
  unfold secondsAndMillis parts
  split
  · cases A.parse bytes <;> rfl
  · next h => exact fraction_eq hA (by decide) (by omega) (by omega)
  · next h => exact fraction_eq hA (by decide) (by omega) (by omega)
  · next h => exact fraction_eq hA (by decide) (by omega) (by omega)
  · rfl

theorem fraction_le (hA : A.Strict) {scale : ℕ} (hscale : scale ≤ 100) (hlen : bytes.length ≤ 6)
    {p : ℕ × ℕ} (h : ((A.parse (bytes.take 2)).bind fun seconds =>
      (A.parse (bytes.drop 3)).map fun millis => (seconds, millis * scale)) = some p) :
    p.1 ≤ 10 ^ 2 ∧ p.2 ≤ 10 ^ 3 * 100 := by
  obtain ⟨seconds, hseconds, h⟩ := Option.bind_eq_some_iff.mp h
  obtain ⟨millis, hmillis, rfl⟩ := Option.map_eq_some_iff.mp h
  have hs : seconds ≤ 10 ^ 2 := Strict.parse_le hA hseconds (List.length_take_le _ _)
  have hm : millis ≤ 10 ^ 3 := Strict.parse_le hA hmillis (by
    rw [List.length_drop]
    omega)
  exact ⟨hs, Nat.mul_le_mul hm hscale⟩

theorem parts_le (hA : A.Strict) {p : ℕ × ℕ} (h : parts A bytes = some p) :
    p.1 ≤ 10 ^ 2 ∧ p.2 ≤ 10 ^ 3 * 100 := by
  unfold parts at h
  dsimp only at h
  split at h
  · next hlen =>
    obtain ⟨seconds, hseconds, rfl⟩ := Option.map_eq_some_iff.mp h
    exact ⟨Strict.parse_le hA hseconds hlen.le, Nat.zero_le _⟩
  · exact fraction_le hA (by decide) (by omega) h
  · exact fraction_le hA (by decide) (by omega) h
  · exact fraction_le hA (by decide) (by omega) h
  · cases h

/-- Ten digits at most stand for the minutes, so that nothing overflows. -/
theorem parseTimestamp_eq (hA : A.Strict) (hlen : bytes.length ≤ 13) :
    parseTimestamp A bytes = okOr () (Lrc.parseTimestamp A bytes) := by
  rw [parseTimestamp_eq_parts]
  unfold parseTimestamp
  cases hcolon : findCharIndex ':' bytes with
  | none => rfl
  | some colonIdx =>
    have hlt := findCharIndex_lt hcolon
    have hidx : colonIdx + 1 ≤ USIZE_MAX := by
      unfold USIZE_MAX
      omega
    simp only [okOr_some, ok_bind, bytesTo_ok hlt.le, usize_ok hidx, bytesFrom_ok hlt,
      Option.bind_some]
    cases hminutes : A.parse (bytes.take colonIdx) with
    | none => rfl
    | some minutes =>
      have hm : minutes ≤ 10 ^ 12 := Strict.parse_le hA hminutes (by
        rw [List.length_take]
        omega)
      simp only [okOr_some, ok_bind, Option.bind_some, secondsAndMillis_eq hA]
      cases hparts : parts A (bytes.drop (colonIdx + 1)) with
      | none => rfl
      | some p =>
        obtain ⟨hseconds, hmillis⟩ := parts_le hA hparts
        have hfits : minutes * 60000 + p.1 * 1000 + p.2 ≤ USIZE_MAX := by
          unfold USIZE_MAX
          omega
        have hms : minutes * 60000 + p.1 * 1000 ≤ USIZE_MAX := (Nat.le_add_right _ _).trans hfits
        have hmin : minutes * 60000 ≤ USIZE_MAX := (Nat.le_add_right _ _).trans hms
        have hsec : p.1 * 1000 ≤ USIZE_MAX := (Nat.le_add_left _ _).trans hms
        simp only [okOr_some, ok_bind, usize_ok hmin, usize_ok hsec, usize_ok hms, usize_ok hfits,
          Option.map_some]

theorem window_length_le (rest : List ℕ) : (window rest).length ≤ 9 := by
  unfold window
  split_ifs
  · rw [List.length_drop, List.length_take]
    omega
  · rw [List.length_drop]
    omega

theorem closing_le {rest : List ℕ} {closing : ℕ} (hlen : 5 ≤ rest.length)
    (h : findCharIndex ']' (window rest) = some closing) :
    closing + 5 < rest.length ∧ closing + 5 ≤ 13 := by
  have hlt := findCharIndex_lt h
  have hle := window_length_le rest
  refine ⟨?_, by omega⟩
  unfold window at hlt
  split_ifs at hlt
  · rw [List.length_drop, List.length_take] at hlt
    omega
  · rw [List.length_drop] at hlt
    omega

theorem searched_eq {rest : List ℕ} :
    searched rest = if rest.length < 5 then .error .panic else .ok (window rest) := by
  unfold searched window
  split_ifs with hlong hshort hshort
  · omega
  · exact bytesRange_ok (by decide) hlong.le
  · exact if_neg (by omega)
  · exact bytesFrom_ok (by omega)

/-- Nothing but the start of the window ever fails. -/
theorem parseTags_eq (hA : A.Strict) (hbytes : bytes.length ≤ ISIZE_MAX) :
    parseTags A bytes fuel acc cursor = Lrc.parseTags A bytes fuel acc cursor := by
  induction fuel generalizing acc cursor with
  | zero => rfl
  | succ fuel ih =>
    unfold parseTags Lrc.parseTags
    by_cases hcursor : cursor < bytes.length
    · have hindex : index bytes cursor = (.ok bytes[cursor] : Except (Failure ErrorKind) ℕ) :=
        index_ok hcursor
      simp only [if_pos hcursor, hindex, ok_bind, List.getElem?_eq_getElem hcursor,
        Option.some.injEq]
      by_cases hbracket : bytes[cursor] = '['.toNat
      · have hnext : cursor + 1 ≤ USIZE_MAX := le_usize_max hbytes (by omega)
        simp only [if_pos hbracket, usize_ok hnext, ok_bind, bytesFrom_ok hcursor, searched_eq]
        by_cases hshort : (bytes.drop (cursor + 1)).length < 5
        · rw [if_pos hshort, if_pos hshort]
          rfl
        · simp only [if_neg hshort, ok_bind]
          cases hfound : findCharIndex ']' (window (bytes.drop (cursor + 1))) with
          | none => rfl
          | some closing =>
            obtain ⟨hlt, hle⟩ := closing_le (by omega) hfound
            have hend := hlt
            rw [List.length_drop] at hend
            have htotal : cursor + (closing + 5 + 2) ≤ USIZE_MAX := le_usize_max hbytes (by omega)
            have hpast : closing + 5 + 2 ≤ USIZE_MAX := (Nat.le_add_left _ _).trans htotal
            have hclosing : closing + 5 ≤ USIZE_MAX := (Nat.le_add_right _ _).trans hpast
            have hstamp : ((bytes.drop (cursor + 1)).take (closing + 5)).length ≤ 13 := by
              rw [List.length_take]
              omega
            simp only [okOr_some, ok_bind, usize_ok hclosing, bytesTo_ok hlt.le, usize_ok hpast,
              usize_ok htotal, parseTimestamp_eq hA hstamp]
            cases Lrc.parseTimestamp A ((bytes.drop (cursor + 1)).take (closing + 5)) with
            | none => rfl
            | some ms => exact ih
      · simp only [if_neg hbracket]
        rfl
    · have hnone : bytes[cursor]? = none := List.getElem?_eq_none (by omega)
      rw [if_neg hcursor, hnone, if_neg nofun]
      rfl

theorem parseLyricLine_eq (hA : A.Strict) {line : Str} (hline : (asBytes line).length ≤ ISIZE_MAX) :
    parseLyricLine A line = Lrc.parseLyricLine A line := by
  unfold parseLyricLine Lrc.parseLyricLine
  dsimp only
  rw [parseTags_eq hA hline]
  cases Lrc.parseTags A (asBytes line) (asBytes line).length [] 0 with
  | error e => rfl
  | ok r =>
    obtain ⟨timestamps, cursor⟩ := r
    simp only [ok_bind, Except.bind]
    by_cases hempty : timestamps.isEmpty
    · rw [if_pos hempty, if_pos hempty]
      rfl
    · rw [if_neg hempty, if_neg hempty]
      cases sliceFrom line cursor <;> rfl

/-- The value ends where its bracket is found. -/
theorem metaLine_eq {line rest : Str} : (do
      let stop ← okOr .InvalidMetadata (memchr ']' (asBytes rest))
      let value ← bytesTo (asBytes rest) stop
      if value = [] ∨ value.getLast? = some ' '.toNat then .error (.error .InvalidMetadata)
      else
        let key ← textRange line 1 (i + 1)
        let value ← slice (sliceTo rest stop)
        return some (.Meta key value) : Except (Failure ErrorKind) (Option TypedLine)) =
    match memchr ']' (asBytes rest) with
    | none => .error (.error .InvalidMetadata)
    | some stop =>
      if (asBytes rest).take stop = [] ∨ ((asBytes rest).take stop).getLast? = some ' '.toNat then
        .error (.error .InvalidMetadata)
      else
        (slice ((sliceTo line (i + 1)).bind fun s => sliceFrom s 1)).bind fun key =>
          (slice (sliceTo rest stop)).map fun value => some (.Meta key value) := by
  cases hstop : memchr ']' (asBytes rest) with
  | none => rfl
  | some stop =>
    have hlt : stop < (asBytes rest).length := findCharIndex_lt hstop
    simp only [okOr_some, ok_bind, bytesTo_ok hlt.le]
    by_cases hvalue : (asBytes rest).take stop = [] ∨
        ((asBytes rest).take stop).getLast? = some ' '.toNat
    · rw [if_pos hvalue, if_pos hvalue]
    · rw [if_neg hvalue, if_neg hvalue, textRange, if_pos (Nat.le_add_left 1 i)]
      cases (sliceTo line (i + 1)).bind fun s => sliceFrom s 1 with
      | none => rfl
      | some key => cases sliceTo rest stop <;> rfl

theorem parseLine_eq (hA : A.Strict) {line : Str} (hline : (asBytes line).length ≤ ISIZE_MAX) :
    parseLine A line = Lrc.parseLine A line := by
  unfold parseLine Lrc.parseLine
  simp only [index_zero]
  cases hfirst : (asBytes line).head? with
  | none => rfl
  | some first =>
    have hpos : 1 ≤ (asBytes line).length := by
      cases hbytes : asBytes line with
      | nil =>
        rw [hbytes] at hfirst
        cases hfirst
      | cons b bytes => exact Nat.succ_pos _
    simp only [ok_bind, slice, Option.elim_some, Except.bind, bytesFrom_ok hpos]
    by_cases hbracket : first ≠ '['.toNat
    · rw [if_pos hbracket, if_pos hbracket]
      rfl
    · simp only [if_neg hbracket]
      cases hcolon : findCharIndex ':' ((asBytes line).drop 1) with
      | none => rfl
      | some i =>
        have hlt := findCharIndex_lt hcolon
        rw [List.length_drop] at hlt
        have hcolonPos : i + 1 ≤ USIZE_MAX := le_usize_max hline (by omega)
        have hnext : i + 1 + 1 ≤ USIZE_MAX := le_usize_max hline (by omega)
        have hrange : i + 1 ≤ (asBytes line).length := by omega
        simp only [okOr_some, ok_bind, usize_ok hcolonPos,
          bytesRange_ok (Nat.le_add_left 1 i) hrange]
        generalize ((asBytes line).take (i + 1)).drop 1 = key
        cases key with
        | nil => rfl
        | cons b key =>
          simp only [List.isEmpty_cons, List.head?_cons, Option.elim_some, ok_bind,
            Bool.false_eq_true, if_false]
          by_cases hdigit : isAsciiDigit b
          · simp only [if_pos hdigit, parseLyricLine_eq hA hline]
            cases Lrc.parseLyricLine A line <;> rfl
          · simp only [if_neg hdigit, usize_ok hnext, ok_bind]
            by_cases hspace : some b = some ' '.toNat ∨ (b :: key).getLast? = some ' '.toNat
            · rw [if_pos hspace]
              exact (if_pos hspace).symm
            · rw [if_neg hspace]
              refine Eq.trans ?_ (if_neg hspace).symm
              cases sliceFrom line (i + 1 + 1) with
              | none => rfl
              | some rest =>
                simp only [Option.elim_some, ok_bind]
                by_cases hstart : rest.head? = some ' '
                · rw [if_pos hstart, if_pos hstart]
                · rw [if_neg hstart, if_neg hstart]
                  exact metaLine_eq

theorem length_asBytes_trim_le (s : Str) : (asBytes (trim s)).length ≤ (asBytes s).length := by
  obtain ⟨before, hbefore⟩ : s.dropWhile isWhitespace <:+ s := List.dropWhile_suffix isWhitespace
  obtain ⟨behind, hbehind⟩ := List.rdropWhile_prefix isWhitespace (s.dropWhile isWhitespace)
  have hsplit : s = before ++ (trim s ++ behind) := by rw [trim, hbehind, hbefore]
  have hlen : (asBytes s).length =
      (asBytes before).length + ((asBytes (trim s)).length + (asBytes behind).length) := by
    rw [← List.length_append, ← List.length_append, ← asBytes_append, ← asBytes_append, ← hsplit]
  omega

/-- A text that is cut at its first line break. -/
theorem exists_break {s : Str} (h : '\n' ∈ s) :
    ∃ line rest, s = line ++ '\n' :: rest ∧ '\n' ∉ line := by
  obtain ⟨line, rest, rfl, hline⟩ := List.eq_append_cons_of_mem h
  exact ⟨line, rest, rfl, hline⟩

theorem brokenLines_eq_nil {s : Str} (h : '\n' ∉ s) : brokenLines s = [] := by
  induction s with
  | nil => rfl
  | cons c s ih =>
    obtain ⟨hc, hs⟩ := not_or.mp (mt List.mem_cons.mpr h)
    rw [brokenLines, if_neg (Ne.symm hc), ih hs]

theorem findIdxs_eq_nil {s : Str} (h : '\n' ∉ s) :
    (asBytes s).findIdxs (· = '\n'.toNat) cursor = [] := by
  rw [List.findIdxs_eq_nil_iff]
  intro b hb
  apply decide_eq_false
  rintro rfl
  exact h ((mem_asBytes_iff (by decide)).mp hb)

theorem findIdxs_break {line rest : Str} (h : '\n' ∉ line) :
    (asBytes (line ++ '\n' :: rest)).findIdxs (· = '\n'.toNat) cursor =
      (cursor + (asBytes line).length) ::
        (asBytes rest).findIdxs (· = '\n'.toNat) (cursor + (asBytes line).length + 1) := by
  rw [asBytes_append, asBytes_cons_of_ascii (by decide), List.findIdxs_append, findIdxs_eq_nil h,
    List.nil_append, List.findIdxs_cons, if_pos (decide_eq_true rfl)]

theorem textRange_eq {done line rest : Str} :
    textRange (done ++ (line ++ rest)) (asBytes done).length
      ((asBytes done).length + (asBytes line).length) = (.ok line : Except (Failure ε) Str) := by
  have hlen : (asBytes done).length + (asBytes line).length = (asBytes (done ++ line)).length := by
    rw [asBytes_append, List.length_append]
  rw [textRange, if_pos (Nat.le_add_right _ _), hlen, ← List.append_assoc, sliceTo_append,
    Option.bind_some, sliceFrom_append]
  rfl

/-- One line, from where the one before it ends. -/
theorem scanLine_eq (hA : A.Strict) {done line rest : Str} {st : Scan} {k : ℕ}
    (hfits : (asBytes (done ++ (line ++ '\n' :: rest))).length ≤ ISIZE_MAX) :
    scanLine A (done ++ (line ++ '\n' :: rest)) (st, (asBytes done).length)
      ((asBytes done).length + (asBytes line).length, k) =
        (Lrc.scanLine A st (line, k)).map fun st =>
          (st, (asBytes done).length + (asBytes line).length + 1) := by
  have hlen : (asBytes (done ++ (line ++ '\n' :: rest))).length =
      (asBytes done).length + ((asBytes line).length + (1 + (asBytes rest).length)) := by
    rw [asBytes_append, asBytes_append, asBytes_cons_of_ascii (by decide), List.length_append,
      List.length_append, List.length_cons, Nat.add_comm 1]
  have htrim : (asBytes (trim line)).length ≤ ISIZE_MAX := by
    have := length_asBytes_trim_le line
    omega
  have hnext : (asBytes done).length + (asBytes line).length + 1 ≤ USIZE_MAX :=
    le_usize_max hfits (by omega)
  simp only [scanLine, Lrc.scanLine, textRange_eq, ok_bind, usize_ok hnext, parseLine_eq hA htrim]
  by_cases hskip : (trim line).isEmpty ∨ (trim line).head? = some '#'
  · rw [if_pos hskip, if_pos hskip]
    rfl
  · rw [if_neg hskip, if_neg hskip]
    cases Lrc.parseLine A (trim line) with
    | error e => rfl
    | ok typed =>
      cases typed with
      | none => rfl
      | some typed =>
        cases typed with
        | Lyric l => rfl
        | Meta key value => cases st.inMetadata <;> rfl

theorem scan_eq (hA : A.Strict) (done : Str) {rest : Str} {st : Scan} {k : ℕ}
    (hfits : (asBytes (done ++ rest)).length ≤ ISIZE_MAX) :
    ((((asBytes rest).findIdxs (· = '\n'.toNat) (asBytes done).length).zipIdx k).foldlM
      (scanLine A (done ++ rest)) (st, (asBytes done).length)).map Prod.fst =
        ((brokenLines rest).zipIdx k).foldlM (Lrc.scanLine A) st := by
  induction hn : rest.length using Nat.strong_induction_on generalizing done rest st k with
  | _ n ih =>
    by_cases hbreak : '\n' ∈ rest
    · obtain ⟨line, tail, rfl, hline⟩ := exists_break hbreak
      rw [findIdxs_break hline, brokenLines_append hline, List.zipIdx_cons, List.zipIdx_cons,
        List.foldlM_cons, List.foldlM_cons, scanLine_eq hA hfits]
      cases Lrc.scanLine A st (line, k) with
      | error e => rfl
      | ok st' =>
        -- what has been read is longer by a line and its break
        have hdone : (asBytes done).length + (asBytes line).length + 1 =
            (asBytes (done ++ (line ++ ['\n']))).length := by
          rw [asBytes_append, asBytes_append, List.length_append, List.length_append,
            Nat.add_assoc]
          rfl
        have htext : done ++ (line ++ '\n' :: tail) = done ++ (line ++ ['\n']) ++ tail := by simp
        have hshorter : tail.length < n := by
          rw [← hn, List.length_append, List.length_cons]
          omega
        simp only [Except.map, ok_bind]
        rw [hdone, htext]
        rw [htext] at hfits
        exact ih tail.length hshorter _ hfits rfl
    · rw [findIdxs_eq_nil hbreak, brokenLines_eq_nil hbreak]
      rfl

/-- With its checks the parser does what it does without them. -/
theorem parse_eq (hA : A.Strict) (content : Content) :
    parse A content = Lyrics.parse A content.text := by
  have hscan : ((lineBreakIdxes content.text).zipIdx.foldlM (scanLine A content.text)
      (Scan.start, 0)).map Prod.fst = (brokenLines content.text).zipIdx.foldlM (Lrc.scanLine A)
        Scan.start := scan_eq hA [] content.fits
  unfold parse Lyrics.parse
  rw [← hscan]
  cases (lineBreakIdxes content.text).zipIdx.foldlM (scanLine A content.text) (Scan.start, 0) <;>
    rfl

end Checked

end Thcdb.Lrc
