import Mathlib.Data.Bool.AllAny
import Thcdb.Images.Durability

namespace Thcdb.Images
open Files Interleaving Relational

/-- The file of the image is there, and it holds bytes with the hash that the image is named
after. -/
def Intact (X : Storage) (w : World) (image : Image) : Prop :=
  ∃ bytes extension, w.volume.read (X.imagePath image) = some bytes ∧
    image.filename = X.fileHash bytes ++ '.' :: extension

def Quiet (X : Storage) (c : Config) (p : Path) : Prop :=
  ∀ i new row node offset, c.calls i = .writing new row node offset → X.newPath new ≠ p

/-- The call is past its lookup and may have begun to make the file. -/
def Call.Holds (X : Storage) (p : Path) : Call → Prop
  | .inserting new | .creatingDir new _ | .opening new _ | .writing new .. | .removing new =>
    X.newPath new = p
  | .finishing image true => X.imagePath image.cols = p
  | _ => False

/-- No image is looked up while another call is making its file. -/
def Alone (X : Storage) (c : Config) (a : Act Input Env) : Prop :=
  ∀ i new, a = .call i .ok → c.calls i = .finding new →
    ∀ j, j ≠ i → ¬(c.calls j).Holds X (X.newPath new)

section Invariant

variable {X : Storage} {S : Set Bytes} {c d : Config} {a : Act Input Env} {w w' : World}
  {l l' : Call} {x : Input} {p : Path}

theorem Inv.intact (hI : Inv X S c) {r : Row Image} (hr : r ∈ c.shared.image)
    (hquiet : Quiet X c (X.imagePath r.cols)) : Intact X c.shared r.cols := by
  obtain ⟨new, m, node, h⟩ := hI.standing _ (.inl ⟨r, hr, rfl⟩)
  have hm : m = new.bytes.length := by
    rcases h.progress with hm | ⟨i, new', row, hcall, hpath⟩
    · exact hm
    · exact absurd hpath (hquiet i new' row node m hcall)
  subst hm
  obtain ⟨new', hmade, t, hcols⟩ := hI.rows r hr
  have hpath : X.newPath new' = X.newPath new := by
    rw [h.path, hcols, hmade.imagePath_eq]
  refine ⟨new.bytes, new.extension, ?_, ?_⟩
  · rw [Volume.read, h.entry, Option.map_some, h.filled.eq]
  · rw [hcols, ← h.made.fileHash]
    exact (hmade.eq_of_newPath h.made hpath).2

theorem holds_of_relies (h : l.Relies X p) : l.Holds X p := by
  cases l with
  | finishing image made => cases made <;> exact h
  | writing => exact h
  | _ => exact h.elim

/-- A call comes to hold a path when it has looked for the image in vain. -/
theorem holds_of_exec (hl : l.Fits X S) (h : exec X x w l = some (w', l')) (hp : l'.Holds X p) :
    l.Holds X p ∨ x = .ok ∧ ∃ new, l = .finding new ∧ X.newPath new = p ∧
      ∀ r ∈ w.image, r.cols.filename ≠ new.filename := by
  cases x with
  | upload parsed uploadedBy =>
    simp only [exec] at h
    split at h <;> cases h
    exact hp.elim
  | ok =>
    cases l with
    | idle | finishing | done => cases h
    | finding new =>
      simp only [exec, statement] at h
      split at h <;> cases h
      next hnone =>
        refine .inr ⟨rfl, new, rfl, hp, ?_⟩
        simpa using hnone
    | inserting new | creatingDir new row | opening new row =>
      cases h
      exact .inl hp
    | writing new row node offset =>
      simp only [exec, statement] at h
      split at h <;> cases h
      obtain ⟨hmade, ⟨t, hrow⟩, -⟩ := hl
      change X.imagePath row.cols = p at hp
      rw [hrow, hmade.imagePath_eq] at hp
      exact .inl hp
    | removing new =>
      cases h
      exact hp.elim
  | found image =>
    simp only [exec] at h
    split at h
    · split at h <;> cases h
      exact hp.elim
    · cases h
  | write n =>
    simp only [exec] at h
    split at h
    · split at h <;> cases h
      exact .inl hp
    · cases h
  | commit =>
    simp only [exec] at h
    split at h <;> cases h
    exact hp.elim
  | fail =>
    obtain ⟨m, hm, heq⟩ := Option.map_eq_some_iff.mp h
    cases heq
    cases l with
    | idle | done => cases hm
    | writing new row node offset =>
      cases hm
      split at hp
      · exact hp.elim
      · exact .inl hp
    | _ =>
      cases hm
      exact hp.elim
  | cancel =>
    simp only [exec] at h
    split at h <;> cases h
    exact hp.elim

/-- A row is committed by the call that held its path. -/
theorem mem_image_of_effect (h : Effect X w x l w' l') {r : Row Image} (hr : r ∈ w'.image) :
    r ∈ w.image ∨ l.Holds X (X.imagePath r.cols) ∧ l' = .done true := by
  cases h with
  | none hv hi hl hl' => exact .inl (hi ▸ hr)
  | committed =>
    rcases List.mem_append.mp hr with hr | hr
    · exact .inl hr
    · rw [List.mem_singleton.mp hr]
      exact .inr ⟨rfl, rfl⟩
  | opened => exact .inl hr
  | wrote hn => exact .inl hr
  | removed hx => exact .inl hr
  | finished => exact .inl hr
  | quit => exact .inl hr

/-- Whoever holds a path is alone with it, and no row has it yet. -/
structure Separate (X : Storage) (c : Config) : Prop where
  calls : ∀ i j p, (c.calls i).Holds X p → (c.calls j).Holds X p → i = j
  rows : ∀ i p, (c.calls i).Holds X p → ∀ r ∈ c.shared.image, X.imagePath r.cols ≠ p

theorem Separate.harmless (h : Separate X c) : Harmless X c a := by
  rintro i new hact
  have hi : (c.calls i).Holds X (X.newPath new) := by
    rcases hact with ⟨-, row, node, offset, hcall⟩ | ⟨-, hcall⟩ <;> rw [hcall] <;> rfl
  exact ⟨fun j hji hj => hji (h.calls j i _ (holds_of_relies hj) hi), h.rows i _ hi⟩

theorem Separate.quiet (h : Separate X c) {r : Row Image} (hr : r ∈ c.shared.image) :
    Quiet X c (X.imagePath r.cols) := by
  intro i new row node offset hcall hpath
  exact h.rows i (X.newPath new) (by rw [hcall]; rfl) r hr hpath.symm

theorem Separate.next (h : Separate X c) (hI : Inv X S c) (hg : Alone X c a)
    (hn : (system X).next c a = some d) : Separate X d := by
  cases a with
  | env b =>
    obtain ⟨w, hw, rfl⟩ := System.next_env_eq_some.mp hn
    cases b
    cases hw
    exact ⟨h.calls, h.rows⟩
  | call i x =>
    obtain ⟨w, l, es, he, rfl⟩ := System.next_call_eq_some.mp hn
    obtain ⟨r, hr, heq⟩ := Option.map_eq_some_iff.mp he
    cases heq
    obtain ⟨w, l⟩ := r
    -- what the call holds now, it held before, or nobody did
    have hnew : ∀ p, l.Holds X p → (∀ j, j ≠ i → ¬(c.calls j).Holds X p) ∧
        ∀ r ∈ c.shared.image, X.imagePath r.cols ≠ p := by
      intro p hp
      rcases holds_of_exec (hI.fits i) hr hp with hold | ⟨hx, new, hcall, rfl, hnone⟩
      · exact ⟨fun j hji hj => hji (h.calls j i p hj hold), h.rows i p hold⟩
      · refine ⟨hg i new (by rw [hx]) hcall, ?_⟩
        intro r hmem hpath
        obtain ⟨new', hmade', t, hcols⟩ := hI.rows r hmem
        have hmade : new.Made X S := by
          have hfits := hI.fits i
          rwa [hcall] at hfits
        rw [hcols, hmade'.imagePath_eq] at hpath
        exact hnone r hmem (by rw [hcols]; exact (hmade'.eq_of_newPath hmade hpath).2)
    have hother : ∀ {j q}, j ≠ i → (Function.update c.calls i l j).Holds X q →
        (c.calls j).Holds X q := by
      intro j q hji hj
      rwa [Function.update_of_ne hji] at hj
    have hself : ∀ {q}, (Function.update c.calls i l i).Holds X q → l.Holds X q := by
      intro q hi
      rwa [Function.update_self] at hi
    constructor
    · intro j k p hj hk
      by_cases hji : j = i <;> by_cases hki : k = i
      · rw [hji, hki]
      · subst hji
        exact absurd (hother hki hk) ((hnew p (hself hj)).1 k hki)
      · subst hki
        exact absurd (hother hji hj) ((hnew p (hself hk)).1 j hji)
      · exact h.calls j k p (hother hji hj) (hother hki hk)
    · intro j p hj r hmem hpath
      rcases mem_image_of_effect (exec_effect hr) hmem with hold | ⟨hheld, hdone⟩
      · by_cases hji : j = i
        · subst hji
          exact (hnew p (hself hj)).2 r hold hpath
        · exact h.rows j p (hother hji hj) r hold hpath
      · by_cases hji : j = i
        · subst hji
          have hl := hself hj
          rw [hdone] at hl
          exact hl
        · subst hpath
          exact hji (h.calls j i _ (hother hji hj) hheld)

theorem inv_initial (h : c.Initial) : Inv X S c where
  sound := h.volume
  fits i := by
    rw [h.calls i]
    trivial
  rows r hr := by simp [h.image] at hr
  nodes i new row node offset hcall := by simp [h.calls i] at hcall
  standing p hp := by
    rcases hp with ⟨r, hr, -⟩ | ⟨i, hi⟩
    · simp [h.image] at hr
    · simp [h.calls i, Call.Relies] at hi

theorem separate_initial (h : c.Initial) : Separate X c where
  calls i j p hi := by simp [h.calls i, Call.Holds] at hi
  rows i p hi := by simp [h.calls i, Call.Holds] at hi

theorem inv_run {as : List (Act Input Env)} (hinj : Set.InjOn X.fileHash S) (h0 : c.Initial)
    (hg : (system X).Meets (fun c a => Harmless X c a ∧ Known S a) c as)
    (h : (system X).run c as = some d) : Inv X S d :=
  System.run_induction (I := Inv X S)
    (fun _ _ _ hI hga hn => hI.next hinj hga.1 hga.2 hn) (inv_initial h0) hg h

end Invariant

/-- Of an image whose row is committed, the file is there whenever nobody is writing it, in every run
in which no file is given up or removed that others rely on; it is there at every moment if no image
is looked up while another call is making its file. The uploads may fail or be dropped anywhere. -/
theorem images_intact (X : Storage) (S : Set Bytes) (hinj : Set.InjOn X.fileHash S) (c d : Config)
    (as : List (Act Input Env)) (h0 : c.Initial) (hknown : ∀ a ∈ as, Known S a)
    (h : (system X).run c as = some d) :
    ((system X).Meets (Harmless X) c as → ∀ r ∈ d.shared.image,
      Quiet X d (X.imagePath r.cols) → Intact X d.shared r.cols) ∧
    ((system X).Meets (Alone X) c as → ∀ r ∈ d.shared.image, Intact X d.shared r.cols) := by
  have hmeets : (system X).Meets (fun _ a => Known S a) c as :=
    System.meets_of_forall fun _ => hknown
  constructor
  · intro hg r hr hquiet
    exact (inv_run hinj h0 (System.meets_and hg hmeets) h).intact hr hquiet
  · intro hg r hr
    have hboth : Inv X S d ∧ Separate X d := by
      refine System.run_induction (I := fun x => Inv X S x ∧ Separate X x)
        (G := fun x a => Alone X x a ∧ Known S a) ?_ ⟨inv_initial h0, separate_initial h0⟩
        (System.meets_and hg hmeets) h
      rintro x a y ⟨hI, hs⟩ ⟨ha, hk⟩ hn
      exact ⟨hI.next hinj hs.harmless hk hn, hs.next hI ha hn⟩
    exact hboth.1.intact hr (hboth.2.quiet hr)

/-- Names two files by their hashes, below `data`. -/
def twoFiles : Storage where
  fileHash bytes :=
    if bytes = [1, 2, 3] then
      ['r', 'H', 'f', 'r', 'i', 'M', 'v', 'E', 'u', 'N', 'T', 'r', 'z', 'p', 't', '2', 'M', 'q',
        '5', 'z', 'O', 'w']
    else
      ['0', 'v', 'D', '5', 'Q', 'o', 'i', 'Y', 'h', 'F', '8', 'I', 'E', 'w', 't', '3', '3', 'e',
        '9', 'Y', 'B', 'w']
  length_fileHash bytes := by
    split <;> rfl
  fileHash_urlSafe bytes := by
    rw [← List.all_iff_forall_prop]
    split <;> rfl
  basePath := ['d', 'a', 't', 'a']

def fresh : Config where
  shared := ⟨0, [], 1, ⟨fun _ => none, fun _ => [], 0⟩⟩
  calls _ := .idle
  log := []

/-- Two files are uploaded at a time, and the write of the second one fails once. -/
def twoUploads : List (Act Input Env) :=
  [.call 0 (.upload ⟨[1, 2, 3], "png"⟩ 7), .call 1 (.upload ⟨[1, 2], "png"⟩ 8), .call 0 .ok,
    .call 1 .ok, .call 0 .ok, .call 1 .ok, .call 0 .ok, .call 1 .ok, .call 0 .ok, .call 1 .ok,
    .call 0 (.write 2), .call 1 (.write 1), .call 1 .fail, .call 1 .ok, .call 0 (.write 1),
    .call 0 .ok, .call 0 .commit]

/-- Only the third and the fourth step look for an image. -/
theorem alone_twoUploads : (system twoFiles).Meets (Alone twoFiles) fresh twoUploads := by
  iterate 2
    refine And.intro (fun i new h => by cases h) fun c hc => ?_
    cases hc
  refine And.intro ?_ fun c hc => ?_
  · intro i new h hi j hj
    cases h
    cases hi
    by_cases hj1 : j = 1
    · subst hj1
      exact id
    · simp [Function.update_of_ne hj, Function.update_of_ne hj1, fresh, Call.Holds]
  cases hc
  refine And.intro ?_ fun c hc => ?_
  · intro i new h hi j hj
    cases h
    cases hi
    by_cases hj0 : j = 0
    · subst hj0
      show ¬twoFiles.newPath _ = twoFiles.newPath _
      decide
    · simp [Function.update_of_ne hj, Function.update_of_ne hj0, fresh, Call.Holds]
  cases hc
  iterate 13
    refine And.intro (fun i new h hi => by cases h <;> cases hi) fun c hc => ?_
    cases hc
  trivial

theorem images_intact_two :
    ((system twoFiles).after fresh twoUploads).shared.image.length = 1 ∧
      ∀ r ∈ ((system twoFiles).after fresh twoUploads).shared.image,
        Intact twoFiles ((system twoFiles).after fresh twoUploads).shared r.cols := by
  refine ⟨rfl, (images_intact twoFiles {[1, 2, 3], [1, 2]} ?_ fresh _ twoUploads
    ⟨rfl, ⟨by simp [fresh], by simp [fresh]⟩, fun _ => rfl⟩ ?_ (System.run_after (by decide))).2
    alone_twoUploads⟩
  · rintro xs (rfl | rfl) ys (rfl | rfl) h
    · rfl
    · exact absurd h (by decide)
    · exact absurd h (by decide)
    · rfl
  · rintro a ha i parsed uploadedBy rfl
    simp only [twoUploads, List.mem_cons, Act.call.injEq, reduceCtorEq, and_false, or_false,
      Input.upload.injEq, List.not_mem_nil] at ha
    rcases ha with ⟨-, rfl, -⟩ | ⟨-, rfl, -⟩ <;> simp

/-- One image is uploaded twice at a time. The second upload fails at its write and takes away the
file of the first one, whose row is committed. -/
def overlapping : List (Act Input Env) :=
  [.call 0 (.upload ⟨[1, 2], "png"⟩ 7), .call 1 (.upload ⟨[1, 2], "png"⟩ 8), .call 0 .ok,
    .call 1 .ok, .call 0 .ok, .call 1 .ok, .call 0 .ok, .call 1 .ok, .call 0 .ok,
    .call 0 (.write 2), .call 0 .ok, .call 0 .commit, .call 1 .ok, .call 1 .fail, .call 1 .ok]

example : ∃ r ∈ ((system twoFiles).after fresh overlapping).shared.image,
    ((system twoFiles).after fresh overlapping).shared.volume.read (twoFiles.imagePath r.cols) =
      none := by
  decide

end Thcdb.Images
