import Thcdb.Lrc.Scan

namespace Thcdb.Lrc
open Text

def allLines (content : Str) : List Str := content.splitOn '\n'

theorem allLines_ne_nil (content : Str) : allLines content ≠ [] := List.splitOn_ne_nil _ _

def lastLine (content : Str) : Str := (allLines content).getLast (allLines_ne_nil content)

/-- Every line counts, with a line break or without one. -/
structure TreatsAlike (A : Atoi) (content : Str) : Prop where
  newline : Lyrics.parse A content = Lyrics.parse A (content ++ ['\n'])
  lines : ∀ l, Lyrics.parse A content = .ok l →
    l.lines = (allLines content).filterMap (lyricOf A)
  metadata : ∀ l, Lyrics.parse A content = .ok l →
    ∀ key value, l.metadata[key]? = some value ↔ LastValue (allLines content) key value

variable {A : Atoi} {c : Char} {s line key value : Str} {lines : List Str} {st : Scan}

theorem allLines_cons : allLines (c :: s) =
    if c = '\n' then [] :: allLines s else (allLines s).modifyHead (c :: ·) := by
  rw [allLines, List.splitOn_cons_eq_if_modifyHead]
  exact if_congr beq_iff_eq rfl rfl

/-- Only what a line break ends is read. -/
theorem brokenLines_eq : brokenLines s = (allLines s).dropLast := by
  induction s with
  | nil => rfl
  | cons c s ih =>
    obtain ⟨x, xs, hs⟩ := List.exists_cons_of_ne_nil (allLines_ne_nil s)
    rw [brokenLines, allLines_cons, ih, hs]
    split_ifs with hc
    · rfl
    · cases xs <;> rfl

theorem brokenLines_break : brokenLines (s ++ ['\n']) = allLines s := by
  induction s with
  | nil => rfl
  | cons c s ih =>
    obtain ⟨x, xs, hs⟩ := List.exists_cons_of_ne_nil (allLines_ne_nil s)
    rw [List.cons_append, brokenLines, allLines_cons, ih, hs]
    rfl

theorem allLines_eq (s : Str) : allLines s = brokenLines s ++ [lastLine s] := by
  rw [brokenLines_eq]
  exact (List.dropLast_append_getLast (allLines_ne_nil s)).symm

theorem parse_break : Lyrics.parse A (s ++ ['\n']) =
    ((scanned A (brokenLines s)).bind fun st =>
      scanLine A st (lastLine s, (brokenLines s).length)).map fun st =>
        ⟨st.metadata, st.lines⟩ := by
  rw [parse_eq_scanned, brokenLines_break, allLines_eq, scanned_concat]

theorem insert_eq_self {m : Std.ExtTreeMap Str Str} (h : m[key]? = some value) :
    m.insert key value = m := by
  apply Std.ExtTreeMap.ext_getElem?
  intro key'
  rw [Std.ExtTreeMap.getElem?_insert]
  split_ifs with hkey
  · rw [← Std.LawfulEqOrd.compare_eq_iff_eq.mp hkey, h]
  · rfl

/-- The lines before the last one are taken, and the last one is read after a line break. -/
theorem break_same_iff (hA : A.Strict) (hst : Scanned A lines st) (line : Str) (k : ℕ) :
    (.ok ⟨st.metadata, st.lines⟩ : Except (Failure Error) Lyrics) =
        ((scanLine A st (line, k)).map fun st => ⟨st.metadata, st.lines⟩) ↔
      Ignored (trim line) ∨ ∃ key value, MetaLine (trim line) key value ∧
        (∀ x ∈ lines, ¬LyricLine (trim x)) ∧ LastValue lines key value := by
  by_cases hlegible : Legible (trim line)
  · rcases hlegible with hignored | hlyric | ⟨key, value, hmeta⟩
    · rw [scanLine_ignored hignored]
      exact iff_of_true rfl (.inl hignored)
    · obtain ⟨l, hl⟩ := (parseLine_lyric_iff hA).mpr hlyric
      rw [scanLine_lyricLine hl hlyric]
      -- a lyric makes the list of lines longer
      refine iff_of_false ?_ ?_
      · intro h
        have hlines := congrArg Lyrics.lines (Except.ok.inj h)
        exact List.cons_ne_nil l [] (List.self_eq_append_right.mp hlines)
      · rintro (hignored | ⟨key, value, hmeta, -⟩)
        · exact not_lyricLine_of_ignored hignored hlyric
        · exact not_lyricLine_of_metaLine hA hmeta hlyric
    · rw [scanLine_metaLine hmeta]
      -- metadata behind a lyric is refused, and before that it sets its key
      constructor
      · intro h
        split_ifs at h with hin
        · have hinsert := congrArg Lyrics.metadata (Except.ok.inj h)
          have hvalue : st.metadata[key]? = some value := by
            rw [show st.metadata = st.metadata.insert key value from hinsert,
              Std.ExtTreeMap.getElem?_insert_self]
          exact .inr ⟨key, value, hmeta, hst.inMetadata.mp hin, (hst.metadata _ _).mp hvalue⟩
        · cases h
      · rintro (hignored | ⟨key', value', hmeta', hno, hlast⟩)
        · exact absurd hmeta (not_metaLine_of_ignored hignored)
        · obtain ⟨rfl, rfl⟩ := hmeta.unique hmeta'
          rw [if_pos (hst.inMetadata.mpr hno), Except.map,
            insert_eq_self ((hst.metadata _ _).mpr hlast)]
  · have hrefused : ∃ e, scanLine A st (line, k) = .error e ∧ _ := scanLine_illegible hA hlegible
    obtain ⟨e, he, -⟩ := hrefused
    rw [he]
    refine iff_of_false nofun ?_
    rintro (hignored | ⟨key, value, hmeta, -⟩)
    · exact hlegible (.inl hignored)
    · exact hlegible (.inr (.inr ⟨key, value, hmeta⟩))

/-- What leaves the result as it is says nothing new. -/
theorem scanned_last (hA : A.Strict) (hst : Scanned A lines st)
    (h : Ignored (trim line) ∨ ∃ key value, MetaLine (trim line) key value ∧
      (∀ x ∈ lines, ¬LyricLine (trim x)) ∧ LastValue lines key value) :
    Scanned A (lines ++ [line]) st := by
  rcases h with hignored | ⟨key, value, hmeta, hno, hlast⟩
  · exact hst.ignored hA hignored
  · have hscan := hst.metaLine hA hmeta (hst.inMetadata.mpr hno)
    rwa [insert_eq_self ((hst.metadata _ _).mpr hlast)] at hscan

theorem treats_alike_iff (hA : A.Strict) (content : Str) : TreatsAlike A content ↔
    ¬Accepted (brokenLines content) ∨ Ignored (trim (lastLine content)) ∨
      ∃ key value, MetaLine (trim (lastLine content)) key value ∧
        (∀ line ∈ brokenLines content, ¬LyricLine (trim line)) ∧
          LastValue (brokenLines content) key value := by
  rcases scanned_cases hA (brokenLines content) with ⟨st, hscan, hst⟩ | ⟨hrefused, e, hscan, -⟩
  · have hparse : Lyrics.parse A content = .ok ⟨st.metadata, st.lines⟩ := by
      rw [parse_eq_scanned, hscan]
      rfl
    have hbreak : Lyrics.parse A (content ++ ['\n']) =
        (scanLine A st (lastLine content, (brokenLines content).length)).map fun st =>
          ⟨st.metadata, st.lines⟩ := by
      rw [parse_break, hscan]
      rfl
    have hsame := break_same_iff hA hst (lastLine content) (brokenLines content).length
    rw [or_iff_right (not_not_intro hst.accepted)]
    constructor
    · intro h
      have hnewline := h.newline
      rw [hparse, hbreak] at hnewline
      exact hsame.mp hnewline
    · intro h
      have hlast := scanned_last hA hst h
      rw [← allLines_eq] at hlast
      constructor
      · rw [hparse, hbreak]
        exact hsame.mpr h
      · intro l hl
        rw [hparse] at hl
        cases hl
        exact hlast.lines
      · intro l hl
        rw [hparse] at hl
        cases hl
        exact hlast.metadata
  · -- what is refused before the last line is refused either way
    have hparse : Lyrics.parse A content = .error e := by
      rw [parse_eq_scanned, hscan]
      rfl
    refine iff_of_true ⟨?_, ?_, ?_⟩ (.inl hrefused)
    · rw [hparse, parse_break, hscan]
      rfl
    · rw [hparse]
      exact nofun
    · rw [hparse]
      exact nofun

theorem treats_alike_broken : TreatsAlike Atoi.plain "[01:01]a\n".toList := by
  refine (treats_alike_iff Atoi.plain_strict _).mpr (.inr (.inl ?_))
  unfold Ignored
  decide

theorem unbroken_line_dropped : ¬∀ A : Atoi, A.Strict → ∀ content, TreatsAlike A content := by
  intro h
  have hnewline := (h Atoi.plain Atoi.plain_strict "[01:01]a".toList).newline
  have hdropped : Lyrics.parse Atoi.plain "[01:01]a".toList = .ok ⟨∅, []⟩ := rfl
  have hread : Lyrics.parse Atoi.plain ("[01:01]a".toList ++ ['\n']) =
      .ok ⟨∅, [⟨[61000], "a".toList⟩]⟩ := rfl
  rw [hdropped, hread] at hnewline
  cases hnewline

end Thcdb.Lrc
