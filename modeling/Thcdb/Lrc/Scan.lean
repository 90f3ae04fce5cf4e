import Thcdb.Lrc.Grammar

namespace Thcdb.Lrc
open Text

def Metadata (line : Str) : Prop := ∃ key value, MetaLine line key value

/-- Lines that are all taken: no metadata follows lyrics. -/
structure Accepted (lines : List Str) : Prop where
  legible : ∀ line ∈ lines, Legible (trim line)
  ordered : lines.Pairwise fun line later => LyricLine (trim line) → ¬Metadata (trim later)

def LastValue (lines : List Str) (key value : Str) : Prop :=
  ∃ before line behind, lines = before ++ line :: behind ∧ MetaLine (trim line) key value ∧
    ∀ later ∈ behind, ∀ value, ¬MetaLine (trim later) key value

section
variable (A : Atoi)

def lyricOf (line : Str) : Option Line :=
  match parseLine A (trim line) with
  | .ok (some (.Lyric l)) => some l
  | _ => none

def scanned (lines : List Str) : Except (Failure Error) Scan :=
  lines.zipIdx.foldlM (scanLine A) Scan.start

structure Scanned (lines : List Str) (st : Scan) : Prop where
  accepted : Accepted lines
  inMetadata : st.inMetadata = true ↔ ∀ line ∈ lines, ¬LyricLine (trim line)
  metadata : ∀ key value, st.metadata[key]? = some value ↔ LastValue lines key value
  lines : st.lines = lines.filterMap (lyricOf A)

end

variable {A : Atoi} {line key value : Str} {lines : List Str} {st : Scan} {k : ℕ}

theorem scanned_concat : scanned A (lines ++ [line]) =
    (scanned A lines).bind fun st => scanLine A st (line, lines.length) := by
  unfold scanned
  rw [List.zipIdx_append, List.foldlM_append]
  simp only [List.zipIdx_singleton, List.foldlM_cons, List.foldlM_nil, bind_pure, Nat.zero_add]
  rfl

theorem not_lyricLine_of_ignored (h : Ignored line) : ¬LyricLine line := fun hl => h hl.1

theorem not_metaLine_of_ignored (h : Ignored line) : ¬MetaLine line key value := by
  intro hmeta
  obtain ⟨tail, rfl⟩ := hmeta.text
  exact h rfl

theorem not_ignored_of_truncated (h : Truncated line) : ¬Ignored line := by
  obtain ⟨text, rfl, -⟩ := h
  exact fun hi => hi rfl

theorem not_lyricLine_of_metaLine (hA : A.Strict) (h : MetaLine line key value) :
    ¬LyricLine line := by
  intro hl
  obtain ⟨l, hlyric⟩ := (parseLine_lyric_iff hA).mpr hl
  rw [parseLine_of_metaLine h] at hlyric
  cases hlyric

theorem MetaLine.unique {key' value' : Str} (h : MetaLine line key value)
    (h' : MetaLine line key' value') : key' = key ∧ value' = value := by
  have hparse := parseLine_of_metaLine (A := Atoi.plain) h
  rw [parseLine_of_metaLine h'] at hparse
  cases hparse
  exact ⟨rfl, rfl⟩

theorem ne_nil_of_truncated (h : Truncated line) : line ≠ [] := by
  rintro rfl
  obtain ⟨text, hnil, -⟩ := h
  cases hnil

/-- A line that panics is none of those that are taken. -/
theorem not_legible_of_truncated (hA : A.Strict) (h : Truncated line) : ¬Legible line := by
  have hpanic := (parseLine_panic_iff hA (ne_nil_of_truncated h)).mpr h
  rintro (hignored | hlyric | ⟨key, value, hmeta⟩)
  · exact not_ignored_of_truncated h hignored
  · obtain ⟨l, hl⟩ := (parseLine_lyric_iff hA).mpr hlyric
    rw [hpanic] at hl
    cases hl
  · rw [parseLine_of_metaLine hmeta] at hpanic
    cases hpanic

section Lists

theorem accepted_nil : Accepted [] := ⟨nofun, .nil⟩

theorem accepted_concat_iff : Accepted (lines ++ [line]) ↔ Accepted lines ∧ Legible (trim line) ∧
    (Metadata (trim line) → ∀ x ∈ lines, ¬LyricLine (trim x)) := by
  constructor
  · rintro ⟨hlegible, hordered⟩
    obtain ⟨hlines, -, hlast⟩ := List.pairwise_append.mp hordered
    refine ⟨⟨fun x hx => hlegible x (List.mem_append_left _ hx), hlines⟩,
      hlegible line (List.mem_append_right _ List.mem_cons_self), ?_⟩
    intro hmeta x hx hlyric
    exact hlast x hx line List.mem_cons_self hlyric hmeta
  · rintro ⟨⟨hlegible, hordered⟩, hline, hlast⟩
    constructor
    · intro x hx
      rcases List.mem_append.mp hx with hx | hx
      · exact hlegible x hx
      · rwa [List.mem_singleton.mp hx]
    · refine List.pairwise_append.mpr ⟨hordered, List.pairwise_singleton _ _, ?_⟩
      intro x hx y hy hlyric hmeta
      rw [List.mem_singleton.mp hy] at hmeta
      exact hlast hmeta x hx hlyric

theorem not_lastValue_nil : ¬LastValue [] key value := by
  rintro ⟨before, line, behind, h, -⟩
  cases before <;> cases h

theorem lastValue_concat_iff : LastValue (lines ++ [line]) key value ↔
    MetaLine (trim line) key value ∨
      (∀ value, ¬MetaLine (trim line) key value) ∧ LastValue lines key value := by
  constructor
  · rintro ⟨before, x, behind, heq, hmeta, hlast⟩
    rcases List.eq_nil_or_concat behind with rfl | ⟨behind, y, rfl⟩
    · obtain ⟨-, hline⟩ := List.append_inj' heq rfl
      rw [(List.cons.inj hline).1]
      exact .inl hmeta
    · rw [List.concat_eq_append, ← List.cons_append, ← List.append_assoc] at heq
      obtain ⟨rfl, hline⟩ := List.append_inj' heq rfl
      rw [(List.cons.inj hline).1]
      refine .inr ⟨hlast y (by simp), before, x, behind, rfl, hmeta, ?_⟩
      exact fun later hlater => hlast later (by simp [hlater])
  · rintro (hmeta | ⟨hno, before, x, behind, rfl, hmeta, hlast⟩)
    · exact ⟨lines, line, [], rfl, hmeta, nofun⟩
    · refine ⟨before, x, behind ++ [line], by simp, hmeta, ?_⟩
      intro later hlater
      rcases List.mem_append.mp hlater with h | h
      · exact hlast later h
      · rwa [List.mem_singleton.mp h]

end Lists

section Steps

theorem scanLine_ignored (h : Ignored (trim line)) : scanLine A st (line, k) = .ok st := by
  by_cases hskip : (trim line).isEmpty ∨ (trim line).head? = some '#'
  · simp only [scanLine, if_pos hskip]
  · have hne : trim line ≠ [] := fun hnil => hskip (.inl (List.isEmpty_iff.mpr hnil))
    simp only [scanLine, if_neg hskip, parseLine_no_bracket hne h]

theorem not_skipped (h : ¬Ignored (trim line)) :
    ¬((trim line).isEmpty ∨ (trim line).head? = some '#') := by
  rw [Ignored, not_not] at h
  rintro (hnil | hcomment)
  · rw [List.isEmpty_iff.mp hnil] at h
    cases h
  · rw [h] at hcomment
    cases hcomment

theorem scanLine_lyricLine {l : Line} (h : parseLine A (trim line) = .ok (some (.Lyric l)))
    (hline : LyricLine (trim line)) : scanLine A st (line, k) =
      .ok { st with inMetadata := false, lines := st.lines ++ [l] } := by
  have hskip := not_skipped fun hi => not_lyricLine_of_ignored hi hline
  simp only [scanLine, if_neg hskip, h]

theorem scanLine_metaLine (h : MetaLine (trim line) key value) : scanLine A st (line, k) =
    if st.inMetadata then .ok { st with metadata := st.metadata.insert key value }
    else .error (.error ⟨k + 1, .MetadataAfterLyrics⟩) := by
  have hskip := not_skipped fun hi => not_metaLine_of_ignored hi h
  simp only [scanLine, if_neg hskip, parseLine_of_metaLine h]

/-- A line that is not taken is refused, or panics where it is cut off. -/
theorem scanLine_illegible (hA : A.Strict) (h : ¬Legible (trim line)) :
    ∃ e, scanLine A st (line, k) = .error e ∧ (e = .panic ↔ Truncated (trim line)) := by
  have hignored : ¬Ignored (trim line) := fun hi => h (.inl hi)
  have hskip := not_skipped hignored
  have hne : trim line ≠ [] := fun hnil => hskip (.inl (List.isEmpty_iff.mpr hnil))
  have hpanic := parseLine_panic_iff hA hne
  simp only [scanLine, if_neg hskip]
  cases hline : parseLine A (trim line) with
  | error e =>
    rw [hline, Except.error.injEq] at hpanic
    refine ⟨_, rfl, ?_⟩
    rw [← hpanic]
    cases e <;> exact iff_of_eq (by simp [Failure.map])
  | ok typed =>
    cases typed with
    | none => exact absurd ((parseLine_none_iff hA hne).mp hline) hignored
    | some typed =>
      cases typed with
      | Lyric l => exact absurd (.inr (.inl ((parseLine_lyric_iff hA).mp ⟨l, hline⟩))) h
      | Meta key value =>
        exact absurd (.inr (.inr ⟨key, value, parseLine_meta_iff.mp hline⟩)) h

theorem lyricOf_eq_none (hA : A.Strict) (h : ¬LyricLine (trim line)) : lyricOf A line = none := by
  unfold lyricOf
  split
  · next l hl => exact absurd ((parseLine_lyric_iff hA).mp ⟨l, hl⟩) h
  · rfl

theorem lyricOf_eq_some {l : Line} (h : parseLine A (trim line) = .ok (some (.Lyric l))) :
    lyricOf A line = some l := by
  rw [lyricOf, h]

theorem forall_mem_concat {p : Str → Prop} :
    (∀ x ∈ lines ++ [line], p x) ↔ (∀ x ∈ lines, p x) ∧ p line := by
  rw [List.forall_mem_append, List.forall_mem_singleton]

namespace Scanned

theorem ignored (hA : A.Strict) (h : Scanned A lines st) (hline : Ignored (trim line)) :
    Scanned A (lines ++ [line]) st := by
  have hlyric := not_lyricLine_of_ignored hline
  have hmeta : ∀ key value, ¬MetaLine (trim line) key value := fun _ _ =>
    not_metaLine_of_ignored hline
  constructor
  · refine accepted_concat_iff.mpr ⟨h.accepted, .inl hline, ?_⟩
    exact fun ⟨key, value, hm⟩ => absurd hm (hmeta key value)
  · rw [forall_mem_concat, h.inMetadata, and_iff_left hlyric]
  · intro key value
    rw [lastValue_concat_iff, h.metadata, or_iff_right (hmeta key value), and_iff_right (hmeta key)]
  · rw [List.filterMap_append, h.lines, List.filterMap_cons, lyricOf_eq_none hA hlyric]
    exact (List.append_nil _).symm

theorem lyricLine (h : Scanned A lines st) {l : Line} (hline : LyricLine (trim line))
    (hl : parseLine A (trim line) = .ok (some (.Lyric l))) :
    Scanned A (lines ++ [line])
      { st with inMetadata := false, lines := st.lines ++ [l] } := by
  have hmeta : ∀ key value, ¬MetaLine (trim line) key value := by
    intro key value hm
    rw [parseLine_of_metaLine hm] at hl
    cases hl
  constructor
  · refine accepted_concat_iff.mpr ⟨h.accepted, .inr (.inl hline), ?_⟩
    exact fun ⟨key, value, hm⟩ => absurd hm (hmeta key value)
  · rw [forall_mem_concat]
    exact iff_of_false nofun fun hno => hno.2 hline
  · intro key value
    rw [lastValue_concat_iff, h.metadata, or_iff_right (hmeta key value), and_iff_right (hmeta key)]
  · rw [List.filterMap_append, ← h.lines, List.filterMap_cons, lyricOf_eq_some hl]
    rfl

theorem metaLine (hA : A.Strict) (h : Scanned A lines st) (hline : MetaLine (trim line) key value)
    (hmeta : st.inMetadata = true) :
    Scanned A (lines ++ [line]) { st with metadata := st.metadata.insert key value } := by
  have hlyric := not_lyricLine_of_metaLine hA hline
  constructor
  · refine accepted_concat_iff.mpr ⟨h.accepted, .inr (.inr ⟨key, value, hline⟩), ?_⟩
    exact fun _ => h.inMetadata.mp hmeta
  · rw [forall_mem_concat, ← h.inMetadata, and_iff_left hlyric]
  · intro key' value'
    rw [lastValue_concat_iff, Std.ExtTreeMap.getElem?_insert, ← h.metadata]
    by_cases hkey : key = key'
    · subst hkey
      rw [if_pos Std.ReflCmp.compare_self]
      constructor
      · intro hvalue
        cases hvalue
        exact .inl hline
      · rintro (hm | ⟨hno, -⟩)
        · rw [(hline.unique hm).2]
        · exact absurd hline (hno value)
    · have hno : ∀ value', ¬MetaLine (trim line) key' value' := fun value' hm =>
        hkey (hline.unique hm).1.symm
      rw [if_neg (mt Std.LawfulEqOrd.compare_eq_iff_eq.mp hkey), or_iff_right (hno value'),
        and_iff_right hno]
  · rw [List.filterMap_append, h.lines, List.filterMap_cons, lyricOf_eq_none hA hlyric]
    exact (List.append_nil _).symm

end Scanned

/-- One more line: it is taken, or refused, or panics. -/
theorem scanned_step (hA : A.Strict) (h : Scanned A lines st) (line : Str) (k : ℕ) :
    (∃ st', scanLine A st (line, k) = .ok st' ∧ Scanned A (lines ++ [line]) st') ∨
      ¬Accepted (lines ++ [line]) ∧
        ∃ e, scanLine A st (line, k) = .error e ∧ (e = .panic ↔ Truncated (trim line)) := by
  by_cases hlegible : Legible (trim line)
  · rcases hlegible with hignored | hlyric | ⟨key, value, hmeta⟩
    · exact .inl ⟨st, scanLine_ignored hignored, h.ignored hA hignored⟩
    · obtain ⟨l, hl⟩ := (parseLine_lyric_iff hA).mpr hlyric
      exact .inl ⟨_, scanLine_lyricLine hl hlyric, h.lyricLine hlyric hl⟩
    · rw [scanLine_metaLine hmeta]
      by_cases hst : st.inMetadata = true
      · exact .inl ⟨_, if_pos hst, h.metaLine hA hmeta hst⟩
      · refine .inr ⟨?_, _, if_neg hst, ?_⟩
        · intro haccepted
          exact hst (h.inMetadata.mpr ((accepted_concat_iff.mp haccepted).2.2 ⟨key, value, hmeta⟩))
        · refine iff_of_false nofun fun htruncated => ?_
          exact not_legible_of_truncated hA htruncated (.inr (.inr ⟨key, value, hmeta⟩))
  · refine .inr ⟨?_, scanLine_illegible hA hlegible⟩
    exact fun haccepted => hlegible (accepted_concat_iff.mp haccepted).2.1

end Steps

theorem scanned_cases (hA : A.Strict) (lines : List Str) :
    (∃ st, scanned A lines = .ok st ∧ Scanned A lines st) ∨
      ¬Accepted lines ∧ ∃ e, scanned A lines = .error e ∧ (e = .panic ↔
        ∃ before line behind, lines = before ++ line :: behind ∧ Truncated (trim line) ∧
          Accepted before) := by
  induction lines using List.reverseRecOn with
  | nil =>
    have hnone : ∀ value : Str, (none : Option Str) ≠ some value := fun value h => by cases h
    refine .inl ⟨Scan.start, rfl, accepted_nil, iff_of_true rfl ?_, ?_, rfl⟩
    · intro x hx
      cases hx
    · intro key value
      rw [Scan.start, Std.ExtTreeMap.getElem?_empty]
      exact iff_of_false (hnone value) not_lastValue_nil
  | append_singleton lines line ih =>
    rw [scanned_concat]
    rcases ih with ⟨st, hscan, hst⟩ | ⟨hrefused, e, hscan, hpanic⟩
    · rw [hscan]
      rcases scanned_step hA hst line lines.length with hok | ⟨hrefused, e, he, hpanic⟩
      · exact .inl hok
      · refine .inr ⟨hrefused, e, he, ?_⟩
        rw [hpanic]
        constructor
        · exact fun h => ⟨lines, line, [], rfl, h, hst.accepted⟩
        · rintro ⟨before, x, behind, heq, htruncated, -⟩
          rcases List.eq_nil_or_concat behind with rfl | ⟨behind, y, rfl⟩
          · obtain ⟨-, hline⟩ := List.append_inj' heq rfl
            rwa [(List.cons.inj hline).1]
          · -- all the lines before are legible
            rw [List.concat_eq_append, ← List.cons_append, ← List.append_assoc] at heq
            obtain ⟨rfl, -⟩ := List.append_inj' heq rfl
            have hlegible := hst.accepted.legible x (by simp)
            exact absurd hlegible (not_legible_of_truncated hA htruncated)
    · rw [hscan]
      refine .inr ⟨fun h => hrefused (accepted_concat_iff.mp h).1, e, rfl, ?_⟩
      rw [hpanic]
      constructor
      · rintro ⟨before, x, behind, rfl, htruncated, hbefore⟩
        exact ⟨before, x, behind ++ [line], by simp, htruncated, hbefore⟩
      · rintro ⟨before, x, behind, heq, htruncated, hbefore⟩
        rcases List.eq_nil_or_concat behind with rfl | ⟨behind, y, rfl⟩
        · obtain ⟨rfl, -⟩ := List.append_inj' heq rfl
          exact absurd hbefore hrefused
        · rw [List.concat_eq_append, ← List.cons_append, ← List.append_assoc] at heq
          obtain ⟨rfl, -⟩ := List.append_inj' heq rfl
          exact ⟨before, x, behind, rfl, htruncated, hbefore⟩

theorem parse_eq_scanned (content : Str) : Lyrics.parse A content =
    (scanned A (brokenLines content)).map fun st => ⟨st.metadata, st.lines⟩ := rfl

/-- A file panics where a line is cut off, if nothing before it is refused. -/
theorem parse_returns_iff (hA : A.Strict) (content : Content) :
    Checked.parse A content ≠ .error .panic ↔
      ∀ before line behind, brokenLines content.text = before ++ line :: behind →
        Truncated (trim line) → ¬Accepted before := by
  rw [Checked.parse_eq hA, parse_eq_scanned]
  rcases scanned_cases hA (brokenLines content.text) with
    ⟨st, hscan, hst⟩ | ⟨-, e, hscan, hpanic⟩
  · rw [hscan]
    refine iff_of_true nofun ?_
    intro before line behind heq htruncated
    have hmem : line ∈ brokenLines content.text := by
      rw [heq]
      exact List.mem_append_right _ List.mem_cons_self
    exact absurd (hst.accepted.legible line hmem) (not_legible_of_truncated hA htruncated)
  · have herror : ((.error e : Except (Failure Error) Scan).map fun st =>
        (⟨st.metadata, st.lines⟩ : Lyrics)) = .error .panic ↔ e = .panic := by
      rw [Except.map, Except.error.injEq]
    rw [hscan, ne_eq, herror, hpanic]
    constructor
    · exact fun h before line behind heq ht hb => h ⟨before, line, behind, heq, ht, hb⟩
    · rintro h ⟨before, line, behind, heq, ht, hb⟩
      exact h before line behind heq ht hb

theorem foldl_digits_lt {bytes : List ℕ} (h : ∀ b ∈ bytes, isAsciiDigit b) (n : ℕ) :
    bytes.foldl (fun n b => 10 * n + (b - 48)) n < (n + 1) * 10 ^ bytes.length := by
  induction bytes generalizing n with
  | nil => simp
  | cons b bytes ih =>
    have hb : b - 48 ≤ 9 := by
      have hdigit := h b List.mem_cons_self
      simp only [isAsciiDigit, Bool.and_eq_true, decide_eq_true_eq] at hdigit
      omega
    have htail := ih (fun x hx => h x (List.mem_cons_of_mem b hx)) (10 * n + (b - 48))
    rw [List.foldl_cons, List.length_cons, Nat.pow_succ']
    calc
      _ < (10 * n + (b - 48) + 1) * 10 ^ bytes.length := htail
      _ ≤ ((n + 1) * 10) * 10 ^ bytes.length := Nat.mul_le_mul_right _ (by omega)
      _ = (n + 1) * (10 * 10 ^ bytes.length) := Nat.mul_assoc _ _ _

theorem Atoi.plain_strict : Atoi.plain.Strict := by
  have hspec : ∀ bytes n, parsePlain bytes = some n →
      bytes ≠ [] ∧ bytes.length ≤ 19 ∧ (∀ b ∈ bytes, isAsciiDigit b) ∧ n < 10 ^ bytes.length := by
    intro bytes n h
    unfold parsePlain at h
    split_ifs at h with hbytes
    cases h
    obtain ⟨hne, hlen, hall⟩ := hbytes
    have hdigits := List.all_eq_true.mp hall
    have hlt := foldl_digits_lt hdigits 0
    rw [Nat.zero_add, Nat.one_mul] at hlt
    exact ⟨hne, hlen, hdigits, hlt⟩
  constructor
  · intro bytes n h
    obtain ⟨hne, -, hdigits, -⟩ := hspec bytes n h
    exact ⟨hne, hdigits⟩
  · intro bytes n h
    obtain ⟨-, hlen, -, hlt⟩ := hspec bytes n h
    have hpow : 10 ^ bytes.length ≤ 10 ^ 19 := Nat.pow_le_pow_right (by decide) hlen
    refine ⟨hlt, ?_⟩
    unfold USIZE_MAX
    omega

def oneLine : Content := ⟨"[01:01]a\n".toList, by decide⟩

theorem parse_returns_one_line : Checked.parse Atoi.plain oneLine ≠ .error .panic := by
  refine (parse_returns_iff Atoi.plain_strict oneLine).mpr ?_
  intro before line behind heq htruncated
  have hmem : line ∈ brokenLines oneLine.text := by
    rw [heq]
    exact List.mem_append_right _ List.mem_cons_self
  obtain rfl : line = "[01:01]a".toList := List.mem_singleton.mp hmem
  have hpanic := (parseLine_panic_iff Atoi.plain_strict (by decide)).mpr htruncated
  cases hpanic

/-- Three bytes stand behind the bracket, and the closing one is searched from the fifth. -/
def cutOff : Content := ⟨"[1:]\n".toList, by decide⟩

theorem cut_off_tag_panics :
    ¬∀ A : Atoi, A.Strict → ∀ content, Checked.parse A content ≠ .error .panic := by
  intro h
  exact h Atoi.plain Atoi.plain_strict cutOff rfl

end Thcdb.Lrc
