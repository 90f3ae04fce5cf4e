import Mathlib.Data.Option.Basic
import Mathlib.Data.Nat.Notation
import Mathlib.Tactic.SplitIfs
import Mathlib.Tactic.ByContra
import Thcdb.Fallible.Except

namespace Thcdb.Images

open Fallible (bind_eq_ok)

abbrev Bytes := List UInt8

structure ImageCrate where
  ImageFormat : Type
  [decidableEq : DecidableEq ImageFormat]
  DynamicImage : Type
  extensionsStr : ImageFormat → List String
  extensionsStr_ne_nil : ∀ format, extensionsStr format ≠ []
  fromExtension : String → Option ImageFormat
  /-- `with_guessed_format`, `format` -/
  guessFormat : Bytes → Option ImageFormat
  decode : Bytes → ImageFormat → Option DynamicImage
  dimensions : DynamicImage → UInt32 × UInt32
  writeTo : DynamicImage → ImageFormat → Option Bytes
  intoBytes : DynamicImage → Bytes

attribute [instance] ImageCrate.decidableEq

structure RangeInclusive (α : Type) where
  start : α
  last : α

namespace RangeInclusive
variable {α : Type} [LE α]

def Contains (r : RangeInclusive α) (x : α) : Prop := r.start ≤ x ∧ x ≤ r.last

instance [DecidableLE α] (r : RangeInclusive α) (x : α) : Decidable (r.Contains x) :=
  instDecidableAnd

end RangeInclusive

inductive ValidationError (Format : Type)
  | InvalidType (received : Option Format) (expected : List Format)
  | InvalidFileSize (received : ℕ) (range : RangeInclusive ℕ)
  | InvalidSize (width height : UInt32) (widthRange heightRange : RangeInclusive UInt32)
  | InvalidRatio (received : Float) (expected : RangeInclusive Float)
  | Image

structure ParsedImage where
  bytes : Bytes
  extension : String

structure ParseOption (Format : Type) where
  validFormats : List Format
  fileSizeRange : RangeInclusive ℕ
  widthRange : RangeInclusive UInt32
  heightRange : RangeInclusive UInt32
  ratio : Option (RangeInclusive Float)
  convertTo : Option Format

namespace ParseOption
variable {Format : Type}

def kib (n : ℕ) : ℕ := n * 1024

def mib (n : ℕ) : ℕ := n * 1024 * 1024

/-- The defaults of the builder; `webP` is the format that an image is converted to. -/
def builder (webP : Format) (validFormats : List Format) : ParseOption Format where
  validFormats := validFormats
  fileSizeRange := ⟨kib 100, mib 10⟩
  widthRange := ⟨128, 4096⟩
  heightRange := ⟨128, 4096⟩
  ratio := none
  convertTo := some webP

end ParseOption

section Parser
variable (C : ImageCrate) (option : ParseOption C.ImageFormat)

def validateSize (width height : UInt32) : Except (ValidationError C.ImageFormat) Unit :=
  if option.widthRange.Contains width ∧ option.heightRange.Contains height then .ok ()
  else .error (.InvalidSize width height option.widthRange option.heightRange)

def validateFileSize (size : ℕ) : Except (ValidationError C.ImageFormat) Unit :=
  if option.fileSizeRange.Contains size then .ok ()
  else .error (.InvalidFileSize size option.fileSizeRange)

def validateFormat (format : C.ImageFormat) : Except (ValidationError C.ImageFormat) Unit :=
  if format ∈ option.validFormats then .ok ()
  else .error (.InvalidType (some format) option.validFormats)

def validateRatio (ratio : Float) : Except (ValidationError C.ImageFormat) Unit :=
  match option.ratio with
  | none => .ok ()
  | some expected =>
    if expected.Contains ratio then .ok () else .error (.InvalidRatio ratio expected)

/-- `f64::from(width) / f64::from(height)` -/
def aspectRatio (width height : UInt32) : Float := width.toFloat / height.toFloat

/-- `extensions_str().first().unwrap()` -/
def firstExtension (format : C.ImageFormat) : String :=
  (C.extensionsStr format).head (C.extensionsStr_ne_nil format)

def ImageCrate.decoded (bytes : Bytes) (format : C.ImageFormat) :
    Except (ValidationError C.ImageFormat) C.DynamicImage :=
  (C.decode bytes format).elim (.error .Image) .ok

/-- The image in the format that it is converted to, or as it was decoded. -/
def output (format : C.ImageFormat) (image : C.DynamicImage) :
    Except (ValidationError C.ImageFormat) ParsedImage :=
  match option.convertTo.filter (format ≠ ·) with
  | some target =>
    match C.writeTo image target with
    | none => .error .Image
    | some buffer => .ok ⟨buffer, firstExtension C target⟩
  | none => .ok ⟨C.intoBytes image, firstExtension C format⟩

def parse (bytes : Bytes) : Except (ValidationError C.ImageFormat) ParsedImage := do
  validateFileSize C option bytes.length
  match C.guessFormat bytes with
  | none => .error (.InvalidType none option.validFormats)
  | some format =>
    validateFormat C option format
    let image ← C.decoded bytes format
    let (width, height) := C.dimensions image
    validateSize C option width height
    validateRatio C option (aspectRatio width height)
    output C option format image

end Parser

structure ImageCrate.Documented (C : ImageCrate) : Prop where
  fromExtension_first : ∀ format, C.fromExtension (firstExtension C format) = some format
  decode_writeTo : ∀ image format bytes, C.writeTo image format = some bytes →
    ∃ image', C.decode bytes format = some image' ∧ C.dimensions image' = C.dimensions image
  /-- Decoded pixels are not an encoded file. -/
  decode_intoBytes : ∀ image format, C.decode (C.intoBytes image) format = none

/-- The dimensions, the size, the format and the ratio are in the ranges of the option. -/
structure Allowed (C : ImageCrate) (option : ParseOption C.ImageFormat) (size : ℕ)
    (format : C.ImageFormat) (dimensions : UInt32 × UInt32) : Prop where
  fileSize : option.fileSizeRange.Contains size
  format : format ∈ option.validFormats
  width : option.widthRange.Contains dimensions.1
  height : option.heightRange.Contains dimensions.2
  ratio : ∀ expected ∈ option.ratio, expected.Contains (aspectRatio dimensions.1 dimensions.2)

/-- The stored bytes decode, in the format that the extension names, to an image of the same
dimensions. -/
def Encoded (C : ImageCrate) (parsed : ParsedImage) (dimensions : UInt32 × UInt32) : Prop :=
  ∃ format image, C.fromExtension parsed.extension = some format ∧
    C.decode parsed.bytes format = some image ∧ C.dimensions image = dimensions

/-- An upload that is allowed, and stored as an image file. -/
def StoredAsImage (C : ImageCrate) (option : ParseOption C.ImageFormat) (bytes : Bytes)
    (parsed : ParsedImage) : Prop :=
  ∃ format image, C.guessFormat bytes = some format ∧ C.decode bytes format = some image ∧
    Allowed C option bytes.length format (C.dimensions image) ∧
    Encoded C parsed (C.dimensions image)

section Results
variable {C : ImageCrate} {option : ParseOption C.ImageFormat} {bytes : Bytes}
  {parsed : ParsedImage} {format : C.ImageFormat} {image : C.DynamicImage}

theorem validateFileSize_ok {size : ℕ} (h : validateFileSize C option size = .ok ()) :
    option.fileSizeRange.Contains size := by
  unfold validateFileSize at h
  split_ifs at h with hsize
  exact hsize

theorem validateFormat_ok (h : validateFormat C option format = .ok ()) :
    format ∈ option.validFormats := by
  unfold validateFormat at h
  split_ifs at h with hformat
  exact hformat

theorem validateSize_ok {width height : UInt32} (h : validateSize C option width height = .ok ()) :
    option.widthRange.Contains width ∧ option.heightRange.Contains height := by
  unfold validateSize at h
  split_ifs at h with hsize
  exact hsize

theorem validateRatio_ok {ratio : Float} (h : validateRatio C option ratio = .ok ()) :
    ∀ expected ∈ option.ratio, expected.Contains ratio := by
  unfold validateRatio at h
  intro expected hexpected
  rw [Option.mem_def.mp hexpected] at h
  dsimp only at h
  split_ifs at h with hratio
  exact hratio

theorem decoded_eq_ok (h : C.decoded bytes format = .ok image) :
    C.decode bytes format = some image := by
  unfold ImageCrate.decoded at h
  cases hdecode : C.decode bytes format with
  | none =>
    rw [hdecode] at h
    cases h
  | some image' =>
    rw [hdecode] at h
    cases h
    rfl

/-- Whatever is accepted has passed every check. -/
theorem parse_eq_ok (h : parse C option bytes = .ok parsed) :
    ∃ format image, C.guessFormat bytes = some format ∧ C.decode bytes format = some image ∧
      Allowed C option bytes.length format (C.dimensions image) ∧
      output C option format image = .ok parsed := by
  obtain ⟨_, hfile, h⟩ := bind_eq_ok.mp h
  cases hguess : C.guessFormat bytes with
  | none =>
    rw [hguess] at h
    cases h
  | some format =>
    rw [hguess] at h
    obtain ⟨_, hformat, h⟩ := bind_eq_ok.mp h
    obtain ⟨image, himage, h⟩ := bind_eq_ok.mp h
    obtain ⟨_, hsize, h⟩ := bind_eq_ok.mp h
    obtain ⟨_, hratio, h⟩ := bind_eq_ok.mp h
    obtain ⟨hwidth, hheight⟩ := validateSize_ok hsize
    have hallowed : Allowed C option bytes.length format (C.dimensions image) :=
      ⟨validateFileSize_ok hfile, validateFormat_ok hformat, hwidth, hheight,
        validateRatio_ok hratio⟩
    exact ⟨format, image, rfl, decoded_eq_ok himage, hallowed, h⟩

/-- A converted image is an encoded file. -/
theorem output_convert (hC : C.Documented) {target : C.ImageFormat}
    (htarget : option.convertTo = some target) (hne : format ≠ target)
    (h : output C option format image = .ok parsed) : Encoded C parsed (C.dimensions image) := by
  have hfilter : option.convertTo.filter (format ≠ ·) = some target := by
    simp [htarget, hne]
  unfold output at h
  rw [hfilter] at h
  cases hwrite : C.writeTo image target with
  | none =>
    simp only [hwrite] at h
    cases h
  | some buffer =>
    simp only [hwrite] at h
    cases h
    obtain ⟨image', hdecode, hdimensions⟩ := hC.decode_writeTo image target buffer hwrite
    exact ⟨target, image', hC.fromExtension_first target, hdecode, hdimensions⟩

/-- An image that keeps its format is stored as its pixels, which no format decodes. -/
theorem output_keep (hC : C.Documented)
    (hkeep : ∀ target, option.convertTo = some target → format = target)
    (h : output C option format image = .ok parsed) (dimensions : UInt32 × UInt32) :
    ¬Encoded C parsed dimensions := by
  have hfilter : option.convertTo.filter (format ≠ ·) = none := by
    simpa [Option.filter_eq_none_iff] using hkeep
  unfold output at h
  rw [hfilter] at h
  cases h
  rintro ⟨named, image', -, hdecode, -⟩
  rw [hC.decode_intoBytes] at hdecode
  cases hdecode

theorem stored_of_convert (hC : C.Documented) {target : C.ImageFormat}
    (htarget : option.convertTo = some target)
    (hne : ∀ format, C.guessFormat bytes = some format → format ≠ target)
    (h : parse C option bytes = .ok parsed) : StoredAsImage C option bytes parsed := by
  obtain ⟨format, image, hguess, hdecode, hallowed, hout⟩ := parse_eq_ok h
  have hencoded := output_convert hC htarget (hne format hguess) hout
  exact ⟨format, image, hguess, hdecode, hallowed, hencoded⟩

/-- Parsers that take the default conversion, and not its format, store images. -/
theorem stored_of_builder (hC : C.Documented) {webP : C.ImageFormat}
    {validFormats : List C.ImageFormat} (hvalid : webP ∉ validFormats)
    (fileSizeRange : RangeInclusive ℕ) (widthRange heightRange : RangeInclusive UInt32)
    (ratio : Option (RangeInclusive Float)) :
    let option := { ParseOption.builder webP validFormats with
      fileSizeRange := fileSizeRange
      widthRange := widthRange
      heightRange := heightRange
      ratio := ratio }
    parse C option bytes = .ok parsed → StoredAsImage C option bytes parsed := by
  intro option h
  obtain ⟨format, image, hguess, -, hallowed, -⟩ := parse_eq_ok h
  apply stored_of_convert hC rfl _ h
  rintro _ hguess' rfl
  obtain rfl := Option.some.inj (hguess.symm.trans hguess')
  exact hvalid hallowed.format

end Results

/-- An accepted upload is stored as an image exactly if it was converted. -/
theorem stored_iff_converted (C : ImageCrate) (hC : C.Documented)
    (option : ParseOption C.ImageFormat) (bytes : Bytes) (parsed : ParsedImage)
    (h : parse C option bytes = .ok parsed) :
    StoredAsImage C option bytes parsed ↔
      ∃ format target, C.guessFormat bytes = some format ∧ option.convertTo = some target ∧
        format ≠ target := by
  constructor
  · rintro ⟨_, _, _, _, _, hencoded⟩
    obtain ⟨format, image, hguess, -, -, hout⟩ := parse_eq_ok h
    by_contra hnot
    have hkeep : ∀ target, option.convertTo = some target → format = target := by
      intro target htarget
      by_contra hne
      exact hnot ⟨format, target, hguess, htarget, hne⟩
    exact output_keep hC hkeep hout _ hencoded
  · rintro ⟨format, target, hguess, htarget, hne⟩
    apply stored_of_convert hC htarget _ h
    intro format' hguess'
    rwa [← Option.some.inj (hguess.symm.trans hguess')]

/-- Two formats, and images of one pixel. -/
inductive PlainFormat
  | Pnm
  | Bmp
  deriving DecidableEq

structure Pixel where
  red : UInt8
  green : UInt8
  blue : UInt8
  deriving DecidableEq

namespace PlainFormat

def extensions : PlainFormat → List String
  | Pnm => ["pbm", "pam", "ppm", "pgm", "pnm"]
  | Bmp => ["bmp"]

/-- `P6`, one by one, 255 -/
def pnmHeader : Bytes := [80, 54, 10, 49, 32, 49, 10, 50, 53, 53, 10]

/-- The two headers of a bitmap of one by one pixel of 24 bits. -/
def bmpHeader : Bytes :=
  [66, 77, 58, 0, 0, 0, 0, 0, 0, 0, 54, 0, 0, 0, 40, 0, 0, 0, 1, 0, 0, 0, 1, 0, 0, 0, 1, 0, 24, 0,
    0, 0, 0, 0, 4, 0, 0, 0, 0, 0, 0, 0, 0, 0, 0, 0, 0, 0, 0, 0, 0, 0, 0, 0]

def encode (pixel : Pixel) : PlainFormat → Bytes
  | Pnm => pnmHeader ++ [pixel.red, pixel.green, pixel.blue]
  | Bmp => bmpHeader ++ [pixel.blue, pixel.green, pixel.red, 0]

def decode (bytes : Bytes) : PlainFormat → Option Pixel
  | Pnm =>
    match bytes.drop 11 with
    | [red, green, blue] => if bytes.take 11 = pnmHeader then some ⟨red, green, blue⟩ else none
    | _ => none
  | Bmp =>
    match bytes.drop 54 with
    | [blue, green, red, 0] => if bytes.take 54 = bmpHeader then some ⟨red, green, blue⟩ else none
    | _ => none

def guess (bytes : Bytes) : Option PlainFormat :=
  if bytes.take 2 = [80, 54] then some Pnm
  else if bytes.take 2 = [66, 77] then some Bmp
  else none

end PlainFormat

open PlainFormat in
def plainCrate : ImageCrate where
  ImageFormat := PlainFormat
  DynamicImage := Pixel
  extensionsStr := extensions
  extensionsStr_ne_nil format := by cases format <;> decide
  fromExtension extension := [Pnm, Bmp].find? (extension ∈ extensions ·)
  guessFormat := guess
  decode := decode
  dimensions _ := (1, 1)
  writeTo pixel format := if format = Bmp then some (encode pixel Bmp) else none
  intoBytes pixel := [pixel.red, pixel.green, pixel.blue]

theorem plainCrate_documented : plainCrate.Documented where
  fromExtension_first format := by cases format <;> decide
  decode_writeTo image format bytes h := by
    cases format with
    | Pnm => cases h
    | Bmp =>
      cases h
      exact ⟨image, rfl, rfl⟩
  decode_intoBytes image format := by cases format <;> rfl

def plainOption (convertTo : Option PlainFormat) : ParseOption PlainFormat where
  validFormats := [.Pnm]
  fileSizeRange := ⟨1, 100⟩
  widthRange := ⟨1, 1⟩
  heightRange := ⟨1, 1⟩
  ratio := none
  convertTo := convertTo

def plainUpload : Bytes := PlainFormat.encode ⟨1, 2, 3⟩ .Pnm

theorem stored_iff_converted_bmp : ∃ parsed,
    parse plainCrate (plainOption (some .Bmp)) plainUpload = .ok parsed ∧
      StoredAsImage plainCrate (plainOption (some .Bmp)) plainUpload parsed :=
  ⟨_, rfl, (stored_iff_converted plainCrate plainCrate_documented _ _ _ rfl).mpr
    ⟨.Pnm, .Bmp, rfl, rfl, PlainFormat.noConfusion⟩⟩

/-- An image that is not converted is stored as the three bytes of its pixel. -/
theorem kept_upload_not_stored : ¬∀ C : ImageCrate, C.Documented →
    ∀ option bytes parsed, parse C option bytes = .ok parsed →
      StoredAsImage C option bytes parsed := by
  intro h
  have hparse : parse plainCrate (plainOption none) plainUpload = .ok ⟨[1, 2, 3], "pbm"⟩ := rfl
  obtain ⟨_, _, _, _, _, format, image, _, hdecode, _⟩ :=
    h plainCrate plainCrate_documented _ _ _ hparse
  have hnone := plainCrate_documented.decode_intoBytes ⟨1, 2, 3⟩ format
  cases hdecode.symm.trans hnone

end Thcdb.Images
