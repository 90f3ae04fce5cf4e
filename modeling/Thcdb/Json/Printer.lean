import Thcdb.Json.Value

namespace Json

/-- Objects are maps at every depth, and there are no dates apart from strings. -/
inductive Document : Value → Prop
  | null : Document .null
  | bool (b : Bool) : Document (.bool b)
  | num (n : ℤ) : Document (.num n)
  | float (x : Double) : Document (.float x)
  | str (s : String) : Document (.str s)
  | arr {vs : List Value} : (∀ v ∈ vs, Document v) → Document (.arr vs)
  | obj {m : Fields} : m.Ascending → (∀ p ∈ m, Document p.2) → Document (.obj m)

theorem Document.canonical {v : Value} (h : Document v) : Canonical v := by
  induction h with
  | obj hm _ ih => exact .obj hm ih
  | _ => exact .leaf (by simp)

section Printing

def escape (c : Char) : List Char :=
  if c = '\"' then ['\\', '\"']
  else if c = '\\' then ['\\', '\\']
  else if c = Char.ofNat 8 then ['\\', 'b']
  else if c = Char.ofNat 12 then ['\\', 'f']
  else if c = '\n' then ['\\', 'n']
  else if c = '\r' then ['\\', 'r']
  else if c = '\t' then ['\\', 't']
  else if c.toNat < 32 then
    ['\\', 'u', '0', '0', (c.toNat / 16).digitChar, (c.toNat % 16).digitChar]
  else [c]

def quote (s : String) : List Char := '\"' :: s.toList.flatMap escape ++ ['\"']

def indent (level : ℕ) : List Char := List.replicate (2 * level) ' '

/-- The items of a container stand on lines of their own. -/
def block (level : ℕ) (opening closing : Char) : List (List Char) → List Char
  | [] => [opening, closing]
  | x :: xs =>
    opening :: '\n' :: indent (level + 1) ++ x ++
      xs.flatMap (fun y => ',' :: '\n' :: indent (level + 1) ++ y) ++
      '\n' :: indent level ++ [closing]

-- how a date is written
variable (dateText : ℤ → String)

mutual

def print (level : ℕ) : Value → List Char
  | .null => ['n', 'u', 'l', 'l']
  | .bool true => ['t', 'r', 'u', 'e']
  | .bool false => ['f', 'a', 'l', 's', 'e']
  | .num n => (toString n).toList
  | .float x => x.text.toList
  | .str s => quote s
  | .date day => quote (dateText day)
  | .arr vs => block level '[' ']' (printList (level + 1) vs)
  | .obj m => block level '{' '}' (printFields (level + 1) m)

def printList (level : ℕ) : List Value → List (List Char)
  | [] => []
  | v :: vs => print level v :: printList level vs

def printFields (level : ℕ) : List (String × Value) → List (List Char)
  | [] => []
  | (k, v) :: m => (quote k ++ ':' :: ' ' :: print level v) :: printFields level m

end

/-- The text of a value; a date stands without quotes, as a string does. -/
def toStringPretty : Value → String
  | .date day => dateText day
  | v => String.ofList (print dateText 0 v)

end Printing

/-- What follows does not go on with a number. -/
def Closed (r : List Char) : Prop := ∀ c ∈ r.head?, numeric c = false

theorem closed_nil : Closed [] := by simp [Closed]

theorem closed_cons {c : Char} {r : List Char} (hc : numeric c = false) : Closed (c :: r) := by
  simpa [Closed] using hc

theorem number_append_inj {x y r r' : List Char} (hx : ∀ c ∈ x, numeric c)
    (hy : ∀ c ∈ y, numeric c) (hr : Closed r) (hr' : Closed r') (h : x ++ r = y ++ r') :
    x = y ∧ r = r' := by
  induction x generalizing y with
  | nil =>
    cases y with
    | nil => exact ⟨rfl, h⟩
    | cons d y =>
      have hd : numeric d = false := hr d (by rw [List.nil_append] at h; rw [h]; rfl)
      exact absurd (hy d List.mem_cons_self) (by rw [hd]; exact Bool.false_ne_true)
  | cons c x ih =>
    cases y with
    | nil =>
      have hc : numeric c = false := hr' c (by rw [List.nil_append] at h; rw [← h]; rfl)
      exact absurd (hx c List.mem_cons_self) (by rw [hc]; exact Bool.false_ne_true)
    | cons d y =>
      obtain ⟨hcd, htail⟩ := List.cons.inj h
      obtain ⟨hxy, hrr⟩ := ih (fun c hc => hx c (List.mem_cons_of_mem _ hc))
        (fun c hc => hy c (List.mem_cons_of_mem _ hc)) htail
      exact ⟨by rw [hcd, hxy], hrr⟩

section Integers
variable {n m : ℤ}

theorem toList_toString (n : ℤ) : (toString n).toList =
    if 0 ≤ n then Nat.toDigits 10 n.toNat else '-' :: Nat.toDigits 10 (-n).toNat := by
  rw [Int.toString_eq_repr, Int.repr_eq_if]
  split <;> simp [Nat.toList_repr]

theorem isDigit_of_mem_toDigits {c : Char} {k : ℕ} (h : c ∈ Nat.toDigits 10 k) : c.isDigit :=
  Nat.isDigit_of_mem_toDigits (by omega) (by omega) h

theorem toDigits_injective : Function.Injective (Nat.toDigits 10) :=
  Function.LeftInverse.injective (g := fun ds => Nat.ofDigitChars 10 ds 0) fun _ =>
    Nat.ofDigitChars_ten_toDigits

theorem mem_toString {c : Char} (h : c ∈ (toString n).toList) : c.isDigit ∨ c = '-' := by
  rw [toList_toString] at h
  split at h
  · exact Or.inl (isDigit_of_mem_toDigits h)
  · rcases List.mem_cons.mp h with h | h
    · exact Or.inr h
    · exact Or.inl (isDigit_of_mem_toDigits h)

theorem numeric_of_mem_toString : ∀ c ∈ (toString n).toList, numeric c := by
  intro c hc
  rcases mem_toString hc with h | h <;> simp [numeric, h]

theorem toDigits_ne_minus_cons {k : ℕ} {ds : List Char} : Nat.toDigits 10 k ≠ '-' :: ds := by
  intro h
  have hminus := isDigit_of_mem_toDigits (h ▸ List.mem_cons_self : '-' ∈ Nat.toDigits 10 k)
  exact absurd hminus (by decide)

theorem toString_injective (h : (toString n).toList = (toString m).toList) : n = m := by
  rw [toList_toString, toList_toString] at h
  split at h <;> split at h
  · have := toDigits_injective h
    omega
  · exact absurd h toDigits_ne_minus_cons
  · exact absurd h.symm toDigits_ne_minus_cons
  · have := toDigits_injective (List.cons.inj h).2
    omega

theorem toString_ne_double {x : Double} : (toString n).toList ≠ x.text.toList := by
  intro h
  obtain ⟨c, hc, hpoint⟩ := x.pointed
  rw [← h] at hc
  rcases mem_toString hc with hdigit | hminus
  · rcases hpoint with rfl | rfl <;> exact absurd hdigit (by decide)
  · rcases hpoint with rfl | rfl <;> exact absurd hminus (by decide)

end Integers

section Strings
variable {s t : List Char} {r r' : List Char}

def hexValue (c : Char) : ℕ := if c.isDigit then c.toNat - 48 else c.toNat - 87

/-- The character that stands first in a string literal, and the rest. -/
def unescape : List Char → Option (Char × List Char)
  | '\\' :: 'b' :: r => some (Char.ofNat 8, r)
  | '\\' :: 'f' :: r => some (Char.ofNat 12, r)
  | '\\' :: 'n' :: r => some ('\n', r)
  | '\\' :: 'r' :: r => some ('\r', r)
  | '\\' :: 't' :: r => some ('\t', r)
  | '\\' :: 'u' :: _ :: _ :: h :: l :: r => some (Char.ofNat (16 * hexValue h + hexValue l), r)
  | '\\' :: c :: r => some (c, r)
  | c :: r => some (c, r)
  | [] => none

theorem hexValue_digitChar : ∀ k < 16, hexValue k.digitChar = k := by decide

theorem unescape_escape {c : Char} : unescape (escape c ++ r) = some (c, r) := by
  unfold escape
  split_ifs with hquote hslash hb hf hn hr ht hcontrol
  · rw [hquote]; rfl
  · rw [hslash]; rfl
  · rw [hb]; rfl
  · rw [hf]; rfl
  · rw [hn]; rfl
  · rw [hr]; rfl
  · rw [ht]; rfl
  · have hhigh := hexValue_digitChar (c.toNat / 16) (by omega)
    have hlow := hexValue_digitChar (c.toNat % 16) (by omega)
    have hcode : 16 * (c.toNat / 16) + c.toNat % 16 = c.toNat := by omega
    simp only [List.cons_append, List.nil_append, unescape, hhigh, hlow, hcode, Char.ofNat_toNat]
  · unfold unescape
    split <;> simp_all

theorem escape_ne_quote {c : Char} : escape c ++ r ≠ '\"' :: r' := by
  unfold escape
  split_ifs <;> simp_all

/-- What stands before the closing quote, and the rest; at most `n` characters. -/
def readLiteral : ℕ → List Char → Option (List Char × List Char)
  | _, '\"' :: r => some ([], r)
  | 0, _ => none
  | n + 1, s =>
    (unescape s).bind fun (c, r) => (readLiteral n r).map fun (cs, r) => (c :: cs, r)

theorem readLiteral_escape {n : ℕ} (h : s.length ≤ n) :
    readLiteral n (s.flatMap escape ++ '\"' :: r) = some (s, r) := by
  induction s generalizing n with
  | nil => simp [readLiteral]
  | cons c s ih =>
    obtain ⟨n, rfl⟩ := Nat.exists_eq_add_of_lt h
    rw [List.flatMap_cons, List.append_assoc, readLiteral.eq_3 _ _ fun _ => escape_ne_quote]
    have hrest := @ih (s.length + n) (Nat.le_add_right _ _)
    simp only [unescape_escape, Option.bind_some, hrest, Option.map_some]

theorem length_le_flatMap_escape (s : List Char) : s.length ≤ (s.flatMap escape).length := by
  induction s with
  | nil => exact Nat.zero_le _
  | cons c s ih =>
    have hpos : 0 < (escape c).length := by
      unfold escape
      split_ifs <;> simp
    rw [List.flatMap_cons, List.length_append, List.length_cons]
    omega

def unquote : List Char → Option (String × List Char)
  | '\"' :: r => (readLiteral r.length r).map fun (s, r) => (String.ofList s, r)
  | _ => none

theorem unquote_quote {a : String} : unquote (quote a ++ r) = some (a, r) := by
  have hlength := length_le_flatMap_escape a.toList
  simp only [quote, List.cons_append, List.append_assoc, List.nil_append, unquote]
  rw [readLiteral_escape (by rw [List.length_append]; omega)]
  simp

theorem quote_inj {a b : String} (h : quote a ++ r = quote b ++ r') : a = b ∧ r = r' := by
  have hread := congrArg unquote h
  rw [unquote_quote, unquote_quote] at hread
  exact Prod.mk.inj (Option.some.inj hread)

end Strings

section Items
variable {α : Type} {level : ℕ} {opening closing : Char} {text : α → List Char} {xs ys : List α}
  {r r' : List Char}

/-- The text of an item tells it apart, whatever follows. -/
def Separated (text : α → List Char) (xs ys : List α) : Prop :=
  ∀ x ∈ xs, ∀ y ∈ ys, ∀ r r' : List Char, Closed r → Closed r' →
    text x ++ r = text y ++ r' → x = y ∧ r = r'

/-- The items after the first one, with the end of the container and what follows. -/
def laterItems (level : ℕ) (closing : Char) (text : α → List Char) (xs : List α)
    (r : List Char) : List Char :=
  xs.flatMap (fun x => ',' :: '\n' :: indent (level + 1) ++ text x) ++
    '\n' :: indent level ++ closing :: r

theorem laterItems_nil :
    laterItems level closing text [] r = '\n' :: (indent level ++ closing :: r) := by
  simp [laterItems]

theorem laterItems_cons {x : α} : laterItems level closing text (x :: xs) r =
    ',' :: '\n' :: (indent (level + 1) ++ (text x ++ laterItems level closing text xs r)) := by
  simp [laterItems]

theorem closed_laterItems : Closed (laterItems level closing text xs r) := by
  cases xs with
  | nil =>
    rw [laterItems_nil]
    exact closed_cons (by decide)
  | cons x xs =>
    rw [laterItems_cons]
    exact closed_cons (by decide)

theorem block_cons {x : α} : block level opening closing ((x :: xs).map text) ++ r =
    opening :: '\n' :: (indent (level + 1) ++ (text x ++ laterItems level closing text xs r)) := by
  simp [block, laterItems, List.flatMap_map]

theorem laterItems_inj (hsep : Separated text xs ys)
    (h : laterItems level closing text xs r = laterItems level closing text ys r') :
    xs = ys ∧ r = r' := by
  induction xs generalizing ys with
  | nil =>
    cases ys with
    | nil =>
      rw [laterItems_nil, laterItems_nil] at h
      exact ⟨rfl, (List.cons.inj (List.append_cancel_left (List.cons.inj h).2)).2⟩
    | cons y ys =>
      rw [laterItems_nil, laterItems_cons] at h
      exact absurd (List.cons.inj h).1 (by decide)
  | cons x xs ih =>
    cases ys with
    | nil =>
      rw [laterItems_nil, laterItems_cons] at h
      exact absurd (List.cons.inj h).1 (by decide)
    | cons y ys =>
      rw [laterItems_cons, laterItems_cons] at h
      have htext := List.append_cancel_left (List.cons.inj (List.cons.inj h).2).2
      obtain ⟨hxy, hrest⟩ := hsep x List.mem_cons_self y List.mem_cons_self _ _
        closed_laterItems closed_laterItems htext
      obtain ⟨hxs, hr⟩ := ih (fun x hx y hy => hsep x (List.mem_cons_of_mem _ hx) y
        (List.mem_cons_of_mem _ hy)) hrest
      exact ⟨by rw [hxy, hxs], hr⟩

/-- A container is read off its text. -/
theorem block_inj (hclosing : closing ≠ '\n') (hsep : Separated text xs ys)
    (h : block level opening closing (xs.map text) ++ r =
      block level opening closing (ys.map text) ++ r') : xs = ys ∧ r = r' := by
  cases xs with
  | nil =>
    cases ys with
    | nil => exact ⟨rfl, by simpa [block] using h⟩
    | cons y ys =>
      rw [block_cons] at h
      exact absurd (List.cons.inj (List.cons.inj h).2).1 hclosing
  | cons x xs =>
    cases ys with
    | nil =>
      rw [block_cons] at h
      exact absurd (List.cons.inj (List.cons.inj h).2).1.symm hclosing
    | cons y ys =>
      rw [block_cons, block_cons] at h
      have htext := List.append_cancel_left (List.cons.inj (List.cons.inj h).2).2
      obtain ⟨hxy, hrest⟩ := hsep x List.mem_cons_self y List.mem_cons_self _ _
        closed_laterItems closed_laterItems htext
      obtain ⟨hxs, hr⟩ := laterItems_inj (fun x hx y hy => hsep x (List.mem_cons_of_mem _ hx) y
        (List.mem_cons_of_mem _ hy)) hrest
      exact ⟨by rw [hxy, hxs], hr⟩

end Items

section Values
variable {dateText : ℤ → String} {level : ℕ} {v w : Value} {r r' : List Char}

theorem printList_eq_map {vs : List Value} :
    printList dateText level vs = vs.map (print dateText level) := by
  induction vs with
  | nil => rfl
  | cons v vs ih => rw [printList, List.map_cons, ih]

def printField (dateText : ℤ → String) (level : ℕ) (p : String × Value) : List Char :=
  quote p.1 ++ ':' :: ' ' :: print dateText level p.2

theorem printFields_eq_map {m : Fields} :
    printFields dateText level m = m.map (printField dateText level) := by
  induction m with
  | nil => rfl
  | cons p m ih => rw [printFields, List.map_cons, ih]; rfl

/-- The kinds of values that differ in how their texts begin. -/
inductive Leading
  | null | true | false | number | string | array | object
  deriving DecidableEq

def Leading.ofChar (c : Char) : Leading :=
  if c = 'n' then .null else if c = 't' then .true else if c = 'f' then .false
  else if c = '\"' then .string else if c = '[' then .array else if c = '{' then .object
  else .number

def leading : Value → Leading
  | .null => .null
  | .bool b => if b then .true else .false
  | .num _ => .number
  | .float _ => .number
  | .str _ => .string
  | .date _ => .string
  | .arr _ => .array
  | .obj _ => .object

theorem ofChar_of_numeric {c : Char} (h : numeric c) : Leading.ofChar c = .number := by
  unfold Leading.ofChar
  split_ifs with h1 h2 h3 h4 h5 h6
  all_goals first | rfl | (subst_vars; exact absurd h (by decide))

theorem head_number {x : List Char} (hne : x ≠ []) (hx : ∀ c ∈ x, numeric c) :
    (x ++ r).head?.map Leading.ofChar = some .number := by
  cases x with
  | nil => exact absurd rfl hne
  | cons c x => simp [ofChar_of_numeric (hx c List.mem_cons_self)]

theorem head_print : (print dateText level v ++ r).head?.map Leading.ofChar = some (leading v) := by
  have hblock : ∀ (opening closing : Char) (items : List (List Char)),
      (block level opening closing items ++ r).head? = some opening := by
    intro opening closing items
    cases items <;> simp [block]
  cases v with
  | null => rfl
  | bool b => cases b <;> rfl
  | num n =>
    refine head_number ?_ numeric_of_mem_toString
    rw [print, toList_toString]
    split
    · exact Nat.toDigits_ne_nil
    · exact List.cons_ne_nil _ _
  | float x =>
    obtain ⟨c, hc, _⟩ := x.pointed
    exact head_number (List.ne_nil_of_mem hc) x.isNumeric
  | str s => rfl
  | date day => rfl
  | arr vs => rw [print, hblock]; rfl
  | obj m => rw [print, hblock]; rfl

theorem leading_eq (h : print dateText level v ++ r = print dateText level w ++ r') :
    leading v = leading w := by
  have hhead := congrArg (fun x => x.head?.map Leading.ofChar) h
  simpa only [head_print, Option.some.injEq] using hhead

/-- A value and what follows are read off the text. -/
theorem print_inj (hv : Document v) (hw : Document w) (hr : Closed r) (hr' : Closed r')
    (h : print dateText level v ++ r = print dateText level w ++ r') : v = w ∧ r = r' := by
  -- The texts of two values of different kinds begin differently.
  have hkind := leading_eq h
  induction hv generalizing w level r r' with
  | null =>
    cases hw <;> simp [leading] at hkind
    · exact ⟨rfl, by simpa [print] using h⟩
    · split at hkind <;> cases hkind
  | bool b =>
    cases hw with
    | bool b' => cases b <;> cases b' <;> simp_all [leading, print]
    | _ => cases b <;> simp [leading] at hkind
  | num n =>
    cases hw with
    | num m =>
      obtain ⟨htext, hrest⟩ := number_append_inj numeric_of_mem_toString numeric_of_mem_toString
        hr hr' h
      exact ⟨by rw [toString_injective htext], hrest⟩
    | float x =>
      have htext := (number_append_inj numeric_of_mem_toString x.isNumeric hr hr' h).1
      exact absurd htext toString_ne_double
    | bool b => cases b <;> simp [leading] at hkind
    | _ => simp [leading] at hkind
  | float x =>
    cases hw with
    | num m =>
      have htext := (number_append_inj x.isNumeric numeric_of_mem_toString hr hr' h).1
      exact absurd htext.symm toString_ne_double
    | float y =>
      obtain ⟨htext, hrest⟩ := number_append_inj x.isNumeric y.isNumeric hr hr' h
      exact ⟨by rw [Double.ext (String.toList_injective htext)], hrest⟩
    | bool b => cases b <;> simp [leading] at hkind
    | _ => simp [leading] at hkind
  | str s =>
    cases hw with
    | str t =>
      obtain ⟨hst, hrest⟩ := quote_inj h
      exact ⟨by rw [hst], hrest⟩
    | bool b => cases b <;> simp [leading] at hkind
    | _ => simp [leading] at hkind
  | @arr vs hvs ih =>
    cases hw with
    | @arr ws hws =>
      rw [print, print, printList_eq_map, printList_eq_map] at h
      have hsep : Separated (print dateText (level + 1)) vs ws :=
        fun x hx y hy r r' hr hr' htext =>
          ih x hx (hws y hy) hr hr' htext (leading_eq htext)
      obtain ⟨hvw, hrest⟩ := block_inj (by decide) hsep h
      exact ⟨by rw [hvw], hrest⟩
    | bool b => cases b <;> simp [leading] at hkind
    | _ => simp [leading] at hkind
  | @obj m hm hvalues ih =>
    cases hw with
    | @obj m' hm' hvalues' =>
      rw [print, print, printFields_eq_map, printFields_eq_map] at h
      have hsep : Separated (printField dateText (level + 1)) m m' := by
        intro p hp q hq r r' hr hr' htext
        unfold printField at htext
        rw [List.append_assoc, List.append_assoc] at htext
        obtain ⟨hkey, hvalue⟩ := quote_inj htext
        have hvalue := (List.cons.inj (List.cons.inj hvalue).2).2
        obtain ⟨hpq, hrest⟩ := ih p hp (hvalues' q hq) hr hr' hvalue (leading_eq hvalue)
        exact ⟨Prod.ext hkey hpq, hrest⟩
      obtain ⟨hmm, hrest⟩ := block_inj (by decide) hsep h
      exact ⟨by rw [hmm], hrest⟩
    | bool b => cases b <;> simp [leading] at hkind
    | _ => simp [leading] at hkind

theorem toStringPretty_eq (hv : Document v) :
    toStringPretty dateText v = String.ofList (print dateText 0 v) := by
  cases hv <;> rfl

/-- Two values with one text are the same. -/
theorem toStringPretty_inj (hv : Document v) (hw : Document w) :
    toStringPretty dateText v = toStringPretty dateText w ↔ v = w := by
  constructor
  · intro h
    rw [toStringPretty_eq hv, toStringPretty_eq hw] at h
    have htext : print dateText 0 v ++ [] = print dateText 0 w ++ [] := by
      rw [String.ofList_injective h]
    exact (print_inj hv hw closed_nil closed_nil htext).1
  · rintro rfl
    rfl

end Values

end Json
