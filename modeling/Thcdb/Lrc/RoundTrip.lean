import Thcdb.Lrc.Lines

namespace Thcdb.Lrc
open Text Lyrics

/-- Lyrics that can be printed, whatever their timestamps. -/
structure Lyrics.Wf (l : Lyrics) : Prop where
  metadata : ∀ key value, l.metadata[key]? = some value → MetaWf key value
  lines : ∀ line ∈ l.lines, LineWf line

/-- All timestamps are of fewer than a million minutes. -/
def Lyrics.InRange (l : Lyrics) : Prop := ∀ line ∈ l.lines, ∀ ts ∈ line.timestamps, Lrc.InRange ts

variable {A : Atoi} {s t line : Str} {c : Char} {k : ℕ} {l : Lyrics} {st st' : Scan}

theorem brokenLines_append (hs : '\n' ∉ s) :
    brokenLines (s ++ '\n' :: t) = s :: brokenLines t := by
  induction s with
  | nil => rfl
  | cons c s ih =>
    obtain ⟨hc, hs⟩ := not_or.mp (mt List.mem_cons.mpr hs)
    rw [List.cons_append, brokenLines, if_neg (Ne.symm hc), ih hs]

theorem break_not_mem (h : line ∈ brokenLines s) : '\n' ∉ line := by
  induction s generalizing line with
  | nil => cases h
  | cons c s ih =>
    unfold brokenLines at h
    split_ifs at h with hc
    · rcases List.mem_cons.mp h with rfl | h
      · exact List.not_mem_nil
      · exact ih h
    · cases hlines : brokenLines s with
      | nil =>
        rw [hlines] at h
        cases h
      | cons x xs =>
        rw [hlines] at h ih
        rcases List.mem_cons.mp h with rfl | h
        · intro hmem
          rcases List.mem_cons.mp hmem with heq | hmem
          · exact hc heq.symm
          · exact ih List.mem_cons_self hmem
        · exact ih (List.mem_cons_of_mem x h)

theorem brokenLines_flatMap {α : Type} {f : α → Str} {xs : List α} (hf : ∀ x ∈ xs, '\n' ∉ f x) :
    brokenLines (xs.flatMap (fun x => f x ++ ['\n']) ++ t) = xs.map f ++ brokenLines t := by
  induction xs with
  | nil => rfl
  | cons x xs ih =>
    have htext : (x :: xs).flatMap (fun x => f x ++ ['\n']) ++ t =
        f x ++ '\n' :: (xs.flatMap (fun x => f x ++ ['\n']) ++ t) := by simp
    rw [htext, brokenLines_append (hf x List.mem_cons_self),
      ih fun y hy => hf y (List.mem_cons_of_mem x hy)]
    rfl

theorem trim_eq_self (hstart : s.head?.any isWhitespace = false)
    (hstop : s.getLast?.any isWhitespace = false) : trim s = s := by
  have hdrop : s.dropWhile isWhitespace = s := by
    cases s with
    | nil => rfl
    | cons c s => exact List.dropWhile_cons_of_neg (Bool.eq_false_iff.mp hstart)
  rw [trim, hdrop, List.rdropWhile_eq_self_iff]
  intro hne
  rw [List.getLast?_eq_some_getLast hne] at hstop
  exact Bool.eq_false_iff.mp hstop

theorem getLast?_trim (s : Str) : (trim s).getLast?.any isWhitespace = false := by
  by_cases hne : trim s = []
  · rw [hne]
    rfl
  · rw [List.getLast?_eq_some_getLast hne]
    exact Bool.eq_false_iff.mpr (List.rdropWhile_last_not _ _ hne)

theorem mem_of_mem_trim (h : c ∈ trim s) : c ∈ s :=
  (List.dropWhile_suffix _).subset ((List.rdropWhile_prefix _ _).subset h)

def metaText (entry : Str × Str) : Str := '[' :: (entry.1 ++ ':' :: (entry.2 ++ [']']))

def lineText (line : Line) : Str := line.timestamps.flatMap displayTimestamp ++ line.text

theorem display_eq (l : Lyrics) : l.display =
    l.metadata.toList.flatMap (fun entry => metaText entry ++ ['\n']) ++
      (l.lines.flatMap (fun line => lineText line ++ ['\n']) ++ []) := by
  have hmeta : displayMeta = fun entry => metaText entry ++ ['\n'] := by
    funext entry
    simp [displayMeta, metaText]
  rw [display, hmeta, List.append_nil]
  rfl

theorem trim_metaText (entry : Str × Str) : trim (metaText entry) = metaText entry := by
  apply trim_eq_self
  · rfl
  · have hlast : (metaText entry).getLast? = some ']' := by
      rw [metaText, show '[' :: (entry.1 ++ ':' :: (entry.2 ++ [']'])) =
        ('[' :: (entry.1 ++ ':' :: entry.2)) ++ [']'] by simp]
      exact List.getLast?_concat
    rw [hlast]
    rfl

theorem break_not_mem_metaText {key value : Str} (h : MetaWf key value) :
    '\n' ∉ metaText (key, value) := by
  have hkey := h.key_break
  have hvalue := h.value_break
  simp [metaText, hkey, hvalue]

theorem lineText_cons {line : Line} (h : line.timestamps ≠ []) :
    ∃ s, lineText line = '[' :: s := by
  obtain ⟨t, timestamps, heq⟩ := List.exists_cons_of_ne_nil h
  rw [lineText, heq, List.flatMap_cons, displayTimestamp_eq]
  exact ⟨_, rfl⟩

theorem getLast?_lineText {line : Line} (h : LineWf line) :
    (lineText line).getLast?.any isWhitespace = false := by
  by_cases htext : line.text = []
  · obtain ⟨timestamps, t, heq⟩ := List.eq_nil_or_concat line.timestamps |>.resolve_left
      h.timestamps_ne
    have hlast : (lineText line).getLast? = some ']' := by
      rw [lineText, htext, heq, List.append_nil, List.concat_eq_append, List.flatMap_append,
        List.flatMap_singleton, displayTimestamp_eq, ← List.cons_append, ← List.append_assoc]
      exact List.getLast?_concat
    rw [hlast]
    rfl
  · rw [lineText, List.getLast?_append_of_ne_nil _ htext]
    exact h.text_stop

theorem trim_lineText {line : Line} (h : LineWf line) : trim (lineText line) = lineText line := by
  apply trim_eq_self
  · obtain ⟨s, hs⟩ := lineText_cons h.timestamps_ne
    rw [hs]
    rfl
  · exact getLast?_lineText h

theorem break_not_mem_lineText {line : Line} (h : LineWf line) : '\n' ∉ lineText line := by
  intro hmem
  rcases List.mem_append.mp hmem with hmem | hmem
  · obtain ⟨ts, -, hmem⟩ := List.mem_flatMap.mp hmem
    rw [displayTimestamp_eq] at hmem
    simp only [List.mem_cons, List.mem_append, List.not_mem_nil, or_false] at hmem
    rcases hmem with hmem | hmem | hmem
    · cases hmem
    · have := mem_stamp hmem
      revert this
      decide
    · cases hmem
  · exact h.text_break hmem

theorem scanLine_meta {key value : Str} (h : MetaWf key value) (hst : st.inMetadata = true) :
    scanLine A st (metaText (key, value), k) =
      .ok { st with metadata := st.metadata.insert key value } := by
  have hparse : parseLine A (metaText (key, value)) = .ok (some (.Meta key value)) :=
    parseLine_of_metaLine h.metaLine
  have hskip : ¬((metaText (key, value)).isEmpty ∨ (metaText (key, value)).head? = some '#') := by
    simp [metaText]
  simp only [scanLine, trim_metaText, if_neg hskip, hparse, hst, if_true]

theorem lineText_not_skipped {line : Line} (h : LineWf line) :
    ¬((lineText line).isEmpty ∨ (lineText line).head? = some '#') := by
  obtain ⟨s, hs⟩ := lineText_cons h.timestamps_ne
  simp [hs]

theorem scanLine_lyric {line : Line} (h : LineWf line)
    (hts : ∀ ts ∈ line.timestamps, Lrc.InRange ts) :
    scanLine A st (lineText line, k) =
      .ok { st with inMetadata := false, lines := st.lines ++ [line] } := by
  have hparse : parseLine A (lineText line) = .ok (some (.Lyric line)) := parseLine_lyric h hts
  simp only [scanLine, trim_lineText h, if_neg (lineText_not_skipped h), hparse]

/-- A printed line that is read at all is in range. -/
theorem inRange_of_scanLine {line : Line} (h : LineWf line)
    (hok : scanLine A st (lineText line, k) = .ok st') :
    ∀ ts ∈ line.timestamps, Lrc.InRange ts := by
  simp only [scanLine, trim_lineText h, if_neg (lineText_not_skipped h)] at hok
  cases hparse : parseLine A (lineText line) with
  | error e =>
    rw [hparse] at hok
    cases hok
  | ok typed => exact inRange_of_parseLine h hparse

theorem scan_metadata {entries : List (Str × Str)} (h : ∀ e ∈ entries, MetaWf e.1 e.2)
    (hst : st.inMetadata = true) :
    ((entries.map metaText).zipIdx k).foldlM (scanLine A) st =
      .ok { st with metadata := st.metadata.insertMany entries } := by
  induction entries generalizing st k with
  | nil =>
    rw [Std.ExtTreeMap.insertMany_nil]
    rfl
  | cons e entries ih =>
    rw [List.map_cons, List.zipIdx_cons, List.foldlM_cons,
      scanLine_meta (h e List.mem_cons_self) hst, Std.ExtTreeMap.insertMany_cons]
    exact ih (fun x hx => h x (List.mem_cons_of_mem e hx)) hst

theorem scan_lines {lines : List Line} (h : ∀ line ∈ lines, LineWf line)
    (hts : ∀ line ∈ lines, ∀ ts ∈ line.timestamps, Lrc.InRange ts) :
    ((lines.map lineText).zipIdx k).foldlM (scanLine A) st =
      .ok { st with
        inMetadata := st.inMetadata && lines.isEmpty
        lines := st.lines ++ lines } := by
  induction lines generalizing st k with
  | nil => simp [pure, Except.pure]
  | cons line lines ih =>
    rw [List.map_cons, List.zipIdx_cons, List.foldlM_cons,
      scanLine_lyric (h line List.mem_cons_self) (hts line List.mem_cons_self)]
    change List.foldlM (scanLine A) _ _ = _
    rw [ih (fun x hx => h x (List.mem_cons_of_mem line hx))
      fun x hx => hts x (List.mem_cons_of_mem line hx)]
    simp

theorem inRange_of_scan {lines : List Line} (h : ∀ line ∈ lines, LineWf line)
    (hok : ((lines.map lineText).zipIdx k).foldlM (scanLine A) st = .ok st') :
    ∀ line ∈ lines, ∀ ts ∈ line.timestamps, Lrc.InRange ts := by
  induction lines generalizing st k with
  | nil => exact nofun
  | cons line lines ih =>
    rw [List.map_cons, List.zipIdx_cons, List.foldlM_cons] at hok
    cases hline : scanLine A st (lineText line, k) with
    | error e =>
      rw [hline] at hok
      cases hok
    | ok next =>
      rw [hline] at hok
      have hhead := inRange_of_scanLine (h line List.mem_cons_self) hline
      have htail := ih (fun x hx => h x (List.mem_cons_of_mem line hx)) hok
      exact List.forall_mem_cons.mpr ⟨hhead, htail⟩

/-- The map of the entries of a map. -/
theorem insertMany_toList (m : Std.ExtTreeMap Str Str) :
    (∅ : Std.ExtTreeMap Str Str).insertMany m.toList = m := by
  rw [← Std.ExtTreeMap.ofList_eq_insertMany_empty]
  apply Std.ExtTreeMap.ext_getElem?
  intro key
  cases hkey : m[key]? with
  | some value =>
    apply Std.ExtTreeMap.getElem?_ofList_of_mem
    · exact Std.ReflCmp.compare_self
    · exact Std.ExtTreeMap.distinct_keys_toList
    · exact Std.ExtTreeMap.mem_toList_iff_getElem?_eq_some.mpr hkey
  | none =>
    apply Std.ExtTreeMap.getElem?_ofList_of_contains_eq_false
    have habsent : m.contains key = false := by
      rw [Std.ExtTreeMap.contains_eq_isSome_getElem?, hkey]
      rfl
    rw [Std.ExtTreeMap.map_fst_toList_eq_keys, Std.ExtTreeMap.contains_keys, habsent]

/-- The metadata is read back, and then the lines are scanned. -/
theorem parse_display_eq (h : l.Wf) : ∃ k, Lyrics.parse A l.display =
    (((l.lines.map lineText).zipIdx k).foldlM (scanLine A)
      { Scan.start with metadata := l.metadata }).map fun st => ⟨st.metadata, st.lines⟩ := by
  have hmeta : ∀ e ∈ l.metadata.toList, MetaWf e.1 e.2 := fun e he =>
    h.metadata e.1 e.2 (Std.ExtTreeMap.mem_toList_iff_getElem?_eq_some.mp he)
  rw [Lyrics.parse, display_eq, brokenLines_flatMap fun e he => break_not_mem_metaText (hmeta e he),
    brokenLines_flatMap fun line hline => break_not_mem_lineText (h.lines line hline),
    show brokenLines [] = [] from rfl, List.append_nil, List.zipIdx_append, List.foldlM_append,
    scan_metadata hmeta rfl, show Scan.start.metadata = ∅ from rfl, insertMany_toList]
  exact ⟨_, rfl⟩

theorem parse_display (h : l.Wf) (hts : l.InRange) : Lyrics.parse A l.display = .ok l := by
  obtain ⟨k, hparse⟩ := parse_display_eq (A := A) h
  rw [hparse, scan_lines h.lines hts]
  rfl

theorem inRange_of_parse_display {l' : Lyrics} (h : l.Wf)
    (hok : Lyrics.parse A l.display = .ok l') : l.InRange := by
  obtain ⟨k, hparse⟩ := parse_display_eq (A := A) h
  rw [hparse] at hok
  cases hscan : ((l.lines.map lineText).zipIdx k).foldlM (scanLine A)
      { Scan.start with metadata := l.metadata } with
  | error e =>
    rw [hscan] at hok
    cases hok
  | ok st => exact inRange_of_scan h.lines hscan

structure Scan.Wf (st : Scan) : Prop where
  metadata : ∀ key value, st.metadata[key]? = some value → MetaWf key value
  lines : ∀ line ∈ st.lines, LineWf line

theorem scanLine_wf (hst : st.Wf) (hbreak : '\n' ∉ line)
    (h : scanLine A st (line, k) = .ok st') : st'.Wf := by
  have hbreak' : '\n' ∉ trim line := fun hmem => hbreak (mem_of_mem_trim hmem)
  simp only [scanLine] at h
  by_cases hskip : (trim line).isEmpty ∨ (trim line).head? = some '#'
  · rw [if_pos hskip] at h
    cases h
    exact hst
  · rw [if_neg hskip] at h
    cases hp : parseLine A (trim line) with
    | error e =>
      rw [hp] at h
      cases h
    | ok typed =>
      rw [hp] at h
      cases typed with
      | none =>
        cases h
        exact hst
      | some typed =>
        have hwf := wf_of_parseLine hbreak' (getLast?_trim line) hp
        cases typed with
        | Meta key value =>
          simp only at h
          split_ifs at h
          cases h
          refine ⟨?_, hst.lines⟩
          intro key' value' hget
          -- an entry of an earlier line is replaced, or stays
          rw [Std.ExtTreeMap.getElem?_insert] at hget
          split_ifs at hget with hkey
          · cases hget
            rw [← Std.LawfulEqCmp.compare_eq_iff_eq.mp hkey]
            exact hwf
          · exact hst.metadata key' value' hget
        | Lyric l =>
          cases h
          refine ⟨hst.metadata, ?_⟩
          intro x hx
          rcases List.mem_append.mp hx with hx | hx
          · exact hst.lines x hx
          · rw [List.mem_singleton.mp hx]
            exact hwf

theorem scan_wf {lines : List Str} (hst : st.Wf) (hbreak : ∀ line ∈ lines, '\n' ∉ line)
    (h : (lines.zipIdx k).foldlM (scanLine A) st = .ok st') : st'.Wf := by
  induction lines generalizing st k with
  | nil =>
    cases h
    exact hst
  | cons line lines ih =>
    rw [List.zipIdx_cons, List.foldlM_cons] at h
    cases hline : scanLine A st (line, k) with
    | error e =>
      rw [hline] at h
      cases h
    | ok next =>
      rw [hline] at h
      exact ih (scanLine_wf hst (hbreak line List.mem_cons_self) hline)
        (fun x hx => hbreak x (List.mem_cons_of_mem line hx)) h

/-- Whatever is parsed can be printed, but for its timestamps. -/
theorem wf_of_parse (h : Lyrics.parse A s = .ok l) : l.Wf := by
  unfold Lyrics.parse at h
  cases hscan : (brokenLines s).zipIdx.foldlM (scanLine A) Scan.start with
  | error e =>
    rw [hscan] at h
    cases h
  | ok st =>
    rw [hscan] at h
    cases h
    have hstart : Scan.start.Wf :=
      { metadata := fun key value hget => by simp [Scan.start] at hget
        lines := fun line hline => by cases hline }
    have hwf := scan_wf hstart (fun line => break_not_mem) hscan
    exact ⟨hwf.metadata, hwf.lines⟩

/-- Lyrics of the right form come back from their text while their timestamps are of fewer than a
million minutes; lyrics that were parsed are of that form, and come back in that case only. -/
theorem lrc_round_trip (A : Atoi) :
    (∀ l : Lyrics, l.Wf → l.InRange → Lyrics.parse A l.display = .ok l) ∧
    ∀ s l, Lyrics.parse A s = .ok l → (Lyrics.parse A l.display = .ok l ↔ l.InRange) := by
  refine ⟨fun l h hts => parse_display h hts, ?_⟩
  intro s l hs
  have h := wf_of_parse hs
  exact ⟨inRange_of_parse_display h, parse_display h⟩

/-- Digits that fit into a `usize`. -/
def parsePlain (bytes : List ℕ) : Option ℕ :=
  if bytes ≠ [] ∧ bytes.length ≤ 19 ∧ bytes.all isAsciiDigit then
    some (bytes.foldl (fun n b => 10 * n + (b - 48)) 0)
  else none

theorem parsePlain_digits (cs : Str) (hne : cs ≠ []) (hlen : cs.length ≤ 10)
    (h : ∀ c ∈ cs, c.isDigit) : parsePlain (asBytes cs) = some (Nat.ofDigitChars 10 cs 0) := by
  have hdigits : ∀ b ∈ cs.map Char.toNat, isAsciiDigit b = true := by
    intro b hb
    obtain ⟨c, hc, rfl⟩ := List.mem_map.mp hb
    simpa [isAsciiDigit] using toNat_of_isDigit (h c hc)
  have hlen' : (cs.map Char.toNat).length ≤ 19 := by
    rw [List.length_map]
    omega
  rw [asBytes_of_digits h, parsePlain,
    if_pos ⟨mt List.map_eq_nil_iff.mp hne, hlen', List.all_eq_true.mpr hdigits⟩, List.foldl_map,
    Nat.ofDigitChars_eq_foldl]
  rfl

def Atoi.plain : Atoi := ⟨parsePlain, parsePlain_digits⟩

def plainLyrics : Lyrics where
  metadata := ((∅ : Std.ExtTreeMap Str Str).insert "ti".toList "Help me".toList).insert "ar".toList
    "ZUN".toList
  lines := [⟨[61000, 61010], "aaa".toList⟩, ⟨[72340], " b".toList⟩]

theorem plainLyrics_parsed : Lyrics.parse Atoi.plain
    "[ti:Help me]\n[ar:ZUN]\n[01:01][1:01.01]aaa\n\n[01:12.340] b \n".toList =
      .ok plainLyrics := by
  rfl

/-- The tags are printed in the order of their keys. -/
theorem lrc_round_trip_plain : Lyrics.parse Atoi.plain plainLyrics.display = .ok plainLyrics ∧
    plainLyrics.display =
      "[ar:ZUN]\n[ti:Help me]\n[01:01.000][01:01.010]aaa\n[01:12.340] b\n".toList := by
  have hrange : plainLyrics.InRange := by
    unfold Lyrics.InRange InRange plainLyrics
    decide
  exact ⟨((lrc_round_trip Atoi.plain).2 _ _ plainLyrics_parsed).mpr hrange, rfl⟩

def millionMinutes : Lyrics := ⟨∅, [⟨[60000000000], []⟩]⟩

/-- A million minutes are read from a short timestamp, and printed as one that is too long for the
search for its bracket. -/
theorem million_minutes_lost : ¬∀ A s l, Lyrics.parse A s = .ok l →
    Lyrics.parse A l.display = .ok l := by
  intro h
  have hparsed : Lyrics.parse Atoi.plain "[1000000:00]\n".toList = .ok millionMinutes := rfl
  have hlost : Lyrics.parse Atoi.plain millionMinutes.display =
      .error (.error ⟨1, .MissingBrackets⟩) := rfl
  have hkept := h Atoi.plain _ _ hparsed
  rw [hlost] at hkept
  cases hkept

end Thcdb.Lrc
