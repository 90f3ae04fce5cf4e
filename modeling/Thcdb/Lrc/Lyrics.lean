import Mathlib.Data.List.DropRight
import Std.Data.ExtTreeMap
import Thcdb.Text.Decimal

namespace Thcdb.Lrc
open Text

/-- The timestamps are in milliseconds. -/
structure Line where
  timestamps : List ℕ
  text : Str
  deriving DecidableEq

structure Lyrics where
  metadata : Std.ExtTreeMap Str Str
  lines : List Line

namespace Lyrics

def displayTimestamp (ts : ℕ) : Str :=
  let minutes := ts / 60000
  let seconds := ts / 1000 % 60
  let millis := ts % 1000
  '[' :: padded 2 minutes ++ ':' :: padded 2 seconds ++ '.' :: padded 3 millis ++ [']']

def displayMeta (entry : Str × Str) : Str := '[' :: entry.1 ++ ':' :: entry.2 ++ [']', '\n']

def displayLine (line : Line) : Str :=
  line.timestamps.flatMap displayTimestamp ++ line.text ++ ['\n']

def display (l : Lyrics) : Str :=
  l.metadata.toList.flatMap displayMeta ++ l.lines.flatMap displayLine

end Lyrics

inductive ErrorKind
  | InvalidMetadata | InvalidTag | InvalidTimestamp | MetadataAfterLyrics | MissingBrackets
  deriving DecidableEq, Repr

structure Error where
  line : ℕ
  kind : ErrorKind
  deriving DecidableEq, Repr

/-- An `Err`, or a slice out of its bounds. -/
inductive Failure (ε : Type)
  | error (e : ε)
  | panic
  deriving DecidableEq, Repr

namespace Failure

def map {ε ε' : Type} (f : ε → ε') : Failure ε → Failure ε'
  | .error e => .error (f e)
  | .panic => .panic

end Failure

def slice {α ε : Type} (s : Option α) : Except (Failure ε) α := s.elim (.error .panic) .ok

/-- `atoi_simd::parse::<usize, false, false>` -/
structure Atoi where
  parse : List ℕ → Option ℕ
  parse_digits : ∀ cs : Str, cs ≠ [] → cs.length ≤ 10 → (∀ c ∈ cs, c.isDigit) →
    parse (asBytes cs) = some (Nat.ofDigitChars 10 cs 0)

inductive TypedLine
  | Meta (key value : Str)
  | Lyric (line : Line)
  deriving DecidableEq

def isWhitespace (c : Char) : Bool :=
  let n := c.toNat
  (9 ≤ n && n ≤ 13) || n == 0x20 || n == 0x85 || n == 0xA0 || n == 0x1680 ||
    (0x2000 ≤ n && n ≤ 0x200A) || n == 0x2028 || n == 0x2029 || n == 0x202F || n == 0x205F ||
    n == 0x3000

def trim (s : Str) : Str := (s.dropWhile isWhitespace).rdropWhile isWhitespace

def isAsciiDigit (b : ℕ) : Bool := 48 ≤ b && b ≤ 57

def findCharIndex (c : Char) (bytes : List ℕ) : Option ℕ := position c.toNat bytes

def memchr (c : Char) (bytes : List ℕ) : Option ℕ := position c.toNat bytes

section
variable (A : Atoi)

/-- What stands between the seconds and their fraction is not looked at. -/
def parseTimestamp (bytes : List ℕ) : Option ℕ :=
  (findCharIndex ':' bytes).bind fun colonIdx =>
    let minStr := bytes.take colonIdx
    let secAndMilliStr := bytes.drop (colonIdx + 1)
    (A.parse minStr).bind fun minutes =>
      let fraction (scale : ℕ) : Option (ℕ × ℕ) :=
        (A.parse (secAndMilliStr.take 2)).bind fun seconds =>
          (A.parse (secAndMilliStr.drop 3)).map fun millis => (seconds, millis * scale)
      let parts : Option (ℕ × ℕ) :=
        match secAndMilliStr.length with
        | 2 => (A.parse secAndMilliStr).map fun seconds => (seconds, 0)
        | 4 => fraction 100
        | 5 => fraction 10
        | 6 => fraction 1
        | _ => none
      parts.map fun (seconds, millis) => minutes * 60000 + seconds * 1000 + millis

/-- The bytes in which the closing bracket is searched. -/
def window (rest : List ℕ) : List ℕ :=
  if rest.length > 14 then (rest.take 14).drop 5 else rest.drop 5

/-- The loop over the tags; every tag takes some bytes, so that their number is fuel enough. -/
def parseTags (bytes : List ℕ) : ℕ → List ℕ → ℕ → Except (Failure ErrorKind) (List ℕ × ℕ)
  | 0, timestamps, cursor => .ok (timestamps, cursor)
  | fuel + 1, timestamps, cursor =>
    if bytes[cursor]? = some '['.toNat then
      let rest := bytes.drop (cursor + 1)
      -- `rest[5..]` panics
      if rest.length < 5 then .error .panic
      else
        match findCharIndex ']' (window rest) with
        | none => .error (.error .MissingBrackets)
        | some closing =>
          match parseTimestamp A (rest.take (closing + 5)) with
          | none => .error (.error .InvalidTimestamp)
          | some ms => parseTags bytes fuel (timestamps ++ [ms]) (cursor + (closing + 5 + 2))
    else .ok (timestamps, cursor)

def parseLyricLine (line : Str) : Except (Failure ErrorKind) (Option Line) :=
  let bytes := asBytes line
  (parseTags A bytes bytes.length [] 0).bind fun (timestamps, cursor) =>
    if timestamps.isEmpty then .ok none
    else (slice (sliceFrom line cursor)).map fun text => some ⟨timestamps, text⟩

def parseLine (line : Str) : Except (Failure ErrorKind) (Option TypedLine) :=
  let bytes := asBytes line
  (slice bytes.head?).bind fun first =>
    if first ≠ '['.toNat then .ok none
    else
      match findCharIndex ':' (bytes.drop 1) with
      | none => .error (.error .InvalidTag)
      | some i =>
        let colonPos := i + 1
        let key := (bytes.take colonPos).drop 1
        match key.head? with
        | none => .error (.error .InvalidTag)
        | some b =>
          -- a key that begins with a digit is the first timestamp of a line
          if isAsciiDigit b then (parseLyricLine A line).map fun l => l.map TypedLine.Lyric
          else if key.head? = some ' '.toNat ∨ key.getLast? = some ' '.toNat then
            .error (.error .InvalidTag)
          else
            (slice (sliceFrom line (colonPos + 1))).bind fun rest =>
              if rest.head? = some ' ' then .error (.error .InvalidMetadata)
              else
                match memchr ']' (asBytes rest) with
                | none => .error (.error .InvalidMetadata)
                | some stop =>
                  let value := (asBytes rest).take stop
                  if value = [] ∨ value.getLast? = some ' '.toNat then
                    .error (.error .InvalidMetadata)
                  else
                    (slice ((sliceTo line colonPos).bind fun s => sliceFrom s 1)).bind fun key =>
                      (slice (sliceTo rest stop)).map fun value => some (.Meta key value)

/-- The pieces that a line break ends; what follows the last one is not among them. -/
def brokenLines : Str → List Str
  | [] => []
  | c :: s =>
    if c = '\n' then [] :: brokenLines s
    else
      match brokenLines s with
      | [] => []
      | line :: lines => (c :: line) :: lines

structure Scan where
  metadata : Std.ExtTreeMap Str Str
  lines : List Line
  inMetadata : Bool

def Scan.start : Scan := ⟨∅, [], true⟩

def scanLine (st : Scan) (line : Str × ℕ) : Except (Failure Error) Scan :=
  let trimmed := trim line.1
  let error (kind : ErrorKind) : Error := ⟨line.2 + 1, kind⟩
  if trimmed.isEmpty ∨ trimmed.head? = some '#' then .ok st
  else
    match parseLine A trimmed with
    | .error e => .error (e.map error)
    | .ok none => .ok st
    | .ok (some (.Meta key value)) =>
      if st.inMetadata then .ok { st with metadata := st.metadata.insert key value }
      else .error (.error (error .MetadataAfterLyrics))
    | .ok (some (.Lyric line)) =>
      .ok { st with inMetadata := false, lines := st.lines ++ [line] }

def Lyrics.parse (content : Str) : Except (Failure Error) Lyrics :=
  ((brokenLines content).zipIdx.foldlM (scanLine A) Scan.start).map fun st => ⟨st.metadata, st.lines⟩

end

end Thcdb.Lrc
