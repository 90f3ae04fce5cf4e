import Mathlib.Data.Set.Function
import Thcdb.Interleaving.Trace
import Thcdb.Images.Store

namespace Thcdb.Images
open Files Interleaving Relational

section Paths

variable {X : Storage} {bytes : Bytes} {p q base : Path} {c : Char}

theorem ne_of_mem_fileHash (h : c ∈ X.fileHash bytes) : c ≠ '/' ∧ c ≠ '.' := by
  have hsafe := X.fileHash_urlSafe bytes c h
  constructor
  · rintro rfl
    exact absurd hsafe (by decide)
  · rintro rfl
    exact absurd hsafe (by decide)

/-- What stands before a name that has no separator. -/
theorem splitFileName_append (hq : '/' ∉ q) : Path.splitFileName (p ++ '/' :: q) = (p ++ ['/'], q) := by
  have hname : (p ++ '/' :: q).reverse.takeWhile (· ≠ '/') = q.reverse := by
    rw [List.reverse_append, List.reverse_cons, List.append_assoc]
    rw [List.takeWhile_append_of_pos]
    · simp
    · intro c hc
      rw [List.mem_reverse] at hc
      simp only [decide_eq_true_eq]
      rintro rfl
      exact hq hc
  simp only [Path.splitFileName, hname, List.reverse_reverse]
  congr 1
  have hlen : (p ++ '/' :: q).length - q.length = (p ++ ['/']).length := by
    simp only [List.length_append, List.length_cons, List.length_nil]
    omega
  rw [hlen, show p ++ '/' :: q = (p ++ ['/']) ++ q by simp, List.take_left]

theorem fileStem_of_not_mem (h : '.' ∉ q) : Path.fileStem q = q := by
  simp [Path.fileStem, h]

theorem push_of_relative (hq : q.isAbsolute = false) (hp : p ≠ []) (hlast : p.getLast? ≠ some '/') :
    Path.push p q = p ++ '/' :: q := by
  simp [Path.push, hq, hp, hlast]

theorem push_nil : Path.push [] p = p := by
  simp [Path.push]

theorem push_injective (hp : p.isAbsolute = false) (hq : q.isAbsolute = false)
    (h : Path.push base p = Path.push base q) : p = q := by
  unfold Path.push at h
  rw [hp, hq] at h
  split_ifs at h <;> simpa using h

theorem fileHash_eq (X : Storage) (bytes : Bytes) :
    ∃ a b c d rest, X.fileHash bytes = a :: b :: c :: d :: rest := by
  have hlen := X.length_fileHash bytes
  rcases h : X.fileHash bytes with _ | ⟨a, _ | ⟨b, _ | ⟨c, _ | ⟨d, rest⟩⟩⟩⟩
  case cons.cons.cons.cons => exact ⟨a, b, c, d, rest, rfl⟩
  all_goals simp [h] at hlen

end Paths

/-- What `from_parsed` makes of an upload, without regard to the user. -/
structure NewImage.Made (X : Storage) (S : Set Bytes) (new : NewImage) : Prop where
  bytes : new.bytes ∈ S
  fileHash : new.fileHash = X.fileHash new.bytes
  directory : new.directory =
    Path.push ((X.fileHash new.bytes).take 2) (((X.fileHash new.bytes).drop 2).take 2)
  extension : new.extension ≠ []

namespace NewImage.Made

variable {X : Storage} {S : Set Bytes} {new new' : NewImage} {uploadedAt : ℕ}

/-- Two directory levels out of the first four characters of the hash. -/
theorem directory_eq (h : new.Made X S) : ∃ a b c d rest,
    new.fileHash = a :: b :: c :: d :: rest ∧ new.directory = [a, b, '/', c, d] := by
  obtain ⟨a, b, c, d, rest, hhash⟩ := fileHash_eq X new.bytes
  have hne : ∀ x ∈ [a, b, c, d], x ≠ '/' := fun x hx =>
    (ne_of_mem_fileHash (by rw [hhash]; simp at hx ⊢; tauto)).1
  refine ⟨a, b, c, d, rest, h.fileHash.trans hhash, ?_⟩
  rw [h.directory, hhash]
  have hb := hne b (by simp)
  have hc := hne c (by simp)
  simp [Path.push, Path.isAbsolute, hb, hc]

theorem ofList_eq (h : new.Made X S) {name : Path} (hname : name.isAbsolute = false) :
    Path.ofList [new.directory, name] = new.directory ++ '/' :: name := by
  obtain ⟨a, b, c, d, rest, hhash, hdir⟩ := h.directory_eq
  have hd : d ≠ '/' := by
    have hmem : d ∈ X.fileHash new.bytes := by
      rw [← h.fileHash, hhash]
      simp
    exact (ne_of_mem_fileHash hmem).1
  show Path.push (Path.push [] new.directory) name = _
  rw [push_nil, push_of_relative hname]
  · simp [hdir]
  · simpa [hdir] using hd

theorem relative_fileHash (h : new.Made X S) (rest : Path) :
    Path.isAbsolute (new.fileHash ++ rest) = false := by
  obtain ⟨a, b, c, d, tail, hhash, -⟩ := h.directory_eq
  have ha : a ∈ X.fileHash new.bytes := by
    rw [← h.fileHash, hhash]
    simp
  simp [Path.isAbsolute, hhash, (ne_of_mem_fileHash ha).1]

theorem fullPath_eq (h : new.Made X S) :
    new.fullPath = new.directory ++ '/' :: new.filename := by
  have hsep : '/' ∉ new.fileHash := fun hmem =>
    (ne_of_mem_fileHash (h.fileHash ▸ hmem)).1 rfl
  have hdot : '.' ∉ new.fileHash := fun hmem =>
    (ne_of_mem_fileHash (h.fileHash ▸ hmem)).2 rfl
  have hrelative : Path.isAbsolute new.fileHash = false := by
    simpa using h.relative_fileHash []
  rw [NewImage.fullPath, h.ofList_eq hrelative, Path.withExtension, splitFileName_append hsep]
  simp [fileStem_of_not_mem hdot, h.extension, NewImage.filename]

/-- The file is written where the row says that it is. -/
theorem imagePath_eq (h : new.Made X S) :
    X.imagePath (new.image uploadedAt) = X.newPath new := by
  have hrow : (new.image uploadedAt).fullPath = new.fullPath := by
    rw [h.fullPath_eq]
    exact h.ofList_eq (h.relative_fileHash _)
  rw [Storage.imagePath, hrow]
  rfl

theorem relative_fullPath (h : new.Made X S) : Path.isAbsolute new.fullPath = false := by
  obtain ⟨a, b, c, d, rest, hhash, hdir⟩ := h.directory_eq
  have ha : a ∈ X.fileHash new.bytes := by
    rw [← h.fileHash, hhash]
    simp
  rw [h.fullPath_eq, hdir]
  simp [Path.isAbsolute, (ne_of_mem_fileHash ha).1]

/-- The path tells the hash and the name. -/
theorem eq_of_newPath (h : new.Made X S) (h' : new'.Made X S)
    (heq : X.newPath new = X.newPath new') :
    X.fileHash new.bytes = X.fileHash new'.bytes ∧ new.filename = new'.filename := by
  have hfull : new.fullPath = new'.fullPath :=
    push_injective h.relative_fullPath h'.relative_fullPath heq
  rw [h.fullPath_eq, h'.fullPath_eq] at hfull
  obtain ⟨a, b, c, d, rest, -, hdir⟩ := h.directory_eq
  obtain ⟨a', b', c', d', rest', -, hdir'⟩ := h'.directory_eq
  have hname : new.filename = new'.filename := by
    have happend := (List.append_inj hfull (by rw [hdir, hdir']; rfl)).2
    exact (List.cons.inj happend).2
  refine ⟨?_, hname⟩
  have hlen : new.fileHash.length = new'.fileHash.length := by
    rw [h.fileHash, h'.fileHash, X.length_fileHash, X.length_fileHash]
  rw [← h.fileHash, ← h'.fileHash]
  exact (List.append_inj hname hlen).1

end NewImage.Made

/-- The call has the file open, or has written it in this transaction. -/
def Call.Relies (X : Storage) (p : Path) : Call → Prop
  | .writing new .. => X.newPath new = p
  | .finishing image true => X.imagePath image.cols = p
  | _ => False

def Call.Fits (X : Storage) (S : Set Bytes) : Call → Prop
  | .finding new | .inserting new | .removing new => new.Made X S
  | .creatingDir new row | .opening new row => new.Made X S ∧ ∃ t, row.cols = new.image t
  | .writing new row _ offset =>
    new.Made X S ∧ (∃ t, row.cols = new.image t) ∧ offset ≤ new.bytes.length
  | .finishing image _ => ∃ new : NewImage, new.Made X S ∧ ∃ t, image.cols = new.image t
  | .idle | .done _ => True

inductive Effect (X : Storage) (w : World) (x : Input) : Call → World → Call → Prop
  | none {l l' w'} (hv : w'.volume = w.volume) (hi : w'.image = w.image)
      (hl : ∀ new row node offset, l ≠ .writing new row node offset)
      (hl' : ∀ p, ¬l'.Relies X p) : Effect X w x l w' l'
  | opened {new row} : Effect X w x (.opening new row)
      { w with volume := (w.volume.create (X.newPath new)).1 }
      (.writing new row (w.volume.create (X.newPath new)).2 0)
  | wrote {new row node offset n} (hn : offset + n ≤ new.bytes.length) :
      Effect X w x (.writing new row node offset)
        { w with volume := w.volume.write node offset ((new.bytes.drop offset).take n) }
        (.writing new row node (offset + n))
  | finished {new row node} : Effect X w x (.writing new row node new.bytes.length) w
      (.finishing row true)
  | quit {new row node offset l'} (hx : x = .fail ∨ x = .cancel)
      (hl' : l' = .done false ∨ l' = .removing new) :
      Effect X w x (.writing new row node offset) w l'
  | removed {new} (hx : x = .ok) : Effect X w x (.removing new)
      { w with volume := w.volume.remove (X.newPath new) } (.done false)
  | committed {row} : Effect X w x (.finishing row true) { w with image := w.image ++ [row] }
      (.done true)

/-- A file that is given up, or removed after a failed write, is not one that others rely on. -/
def Harmless (X : Storage) (c : Config) (a : Act Input Env) : Prop :=
  ∀ i new, (a = .call i .fail ∨ a = .call i .cancel) ∧
      (∃ row node offset, c.calls i = .writing new row node offset) ∨
    a = .call i .ok ∧ c.calls i = .removing new →
    (∀ j, j ≠ i → ¬(c.calls j).Relies X (X.newPath new)) ∧
      ∀ r ∈ c.shared.image, X.imagePath r.cols ≠ X.newPath new

section Steps

variable {X : Storage} {S : Set Bytes} {x : Input} {w w' : World} {l l' : Call}

theorem made_fromParsed {parsed : ParsedImage} {uploadedBy : ℤ} (hbytes : parsed.bytes ∈ S)
    (hextension : parsed.extension ≠ "") :
    (NewImage.fromParsed X parsed uploadedBy .Fs).Made X S :=
  ⟨hbytes, rfl, rfl, by simpa [NewImage.fromParsed] using hextension⟩

theorem statement_effect (h : statement X w l = some (w', l')) : Effect X w .ok l w' l' := by
  cases l with
  | idle | finishing | done => cases h
  | finding new =>
    simp only [statement] at h
    split at h <;> cases h
    exact .none rfl rfl (by simp) fun _ => id
  | inserting new | creatingDir new row =>
    cases h
    exact .none rfl rfl (by simp) fun _ => id
  | opening new row =>
    cases h
    exact .opened
  | writing new row node offset =>
    simp only [statement] at h
    split at h <;> cases h
    next hoffset =>
      subst hoffset
      exact .finished
  | removing new =>
    cases h
    exact .removed rfl

theorem exec_effect (h : exec X x w l = some (w', l')) : Effect X w x l w' l' := by
  cases x with
  | upload parsed uploadedBy =>
    simp only [exec] at h
    split at h <;> cases h
    next hl =>
      subst hl
      exact .none rfl rfl (by simp) fun _ => id
  | ok => exact statement_effect h
  | found image =>
    simp only [exec] at h
    split at h
    · split at h <;> cases h
      exact .none rfl rfl (by simp) fun _ => id
    · cases h
  | write n =>
    simp only [exec] at h
    split at h
    · split at h <;> cases h
      next hn => exact .wrote hn.2
    · cases h
  | commit =>
    simp only [exec] at h
    split at h
    · next image made =>
      cases made with
      | true =>
        cases h
        exact .committed
      | false =>
        cases h
        exact .none rfl rfl (by simp) fun _ => id
    · cases h
  | fail =>
    obtain ⟨m, hm, heq⟩ := Option.map_eq_some_iff.mp h
    cases heq
    cases l with
    | idle | done => cases hm
    | writing new row node offset =>
      cases hm
      refine .quit (.inl rfl) ?_
      split
      · exact .inl rfl
      · exact .inr rfl
    | _ =>
      cases hm
      exact .none rfl rfl (by simp) fun _ => id
  | cancel =>
    simp only [exec] at h
    split at h <;> cases h
    cases l with
    | writing new row node offset => exact .quit (.inr rfl) (.inl rfl)
    | _ => exact .none rfl rfl (by simp) fun _ => id

/-- The locals go on belonging to the upload. -/
theorem exec_fits (hx : ∀ parsed uploadedBy, x = .upload parsed uploadedBy →
      parsed.bytes ∈ S ∧ parsed.extension ≠ "")
    (hrows : ∀ r ∈ w.image, ∃ new : NewImage, new.Made X S ∧ ∃ t, r.cols = new.image t)
    (hl : l.Fits X S) (h : exec X x w l = some (w', l')) : l'.Fits X S := by
  cases x with
  | upload parsed uploadedBy =>
    simp only [exec] at h
    split at h <;> cases h
    obtain ⟨hbytes, hextension⟩ := hx _ _ rfl
    exact made_fromParsed hbytes hextension
  | ok =>
    cases l with
    | idle | finishing | done => cases h
    | finding new =>
      simp only [exec, statement] at h
      split at h <;> cases h
      exact hl
    | inserting new =>
      cases h
      exact ⟨hl, _, rfl⟩
    | creatingDir new row =>
      cases h
      exact hl
    | opening new row =>
      cases h
      exact ⟨hl.1, hl.2, Nat.zero_le _⟩
    | writing new row node offset =>
      simp only [exec, statement] at h
      split at h <;> cases h
      exact ⟨new, hl.1, hl.2.1⟩
    | removing new =>
      cases h
      trivial
  | found image =>
    simp only [exec] at h
    split at h
    · split at h <;> cases h
      next hfound => exact hrows image hfound.1
    · cases h
  | write n =>
    simp only [exec] at h
    split at h
    · split at h <;> cases h
      next hn => exact ⟨hl.1, hl.2.1, hn.2⟩
    · cases h
  | commit =>
    simp only [exec] at h
    split at h <;> cases h
    trivial
  | fail =>
    obtain ⟨m, hm, heq⟩ := Option.map_eq_some_iff.mp h
    cases heq
    cases l with
    | idle | done => cases hm
    | writing new row node offset =>
      cases hm
      split
      · trivial
      · exact hl.1
    | _ =>
      cases hm
      trivial
  | cancel =>
    simp only [exec] at h
    split at h <;> cases h
    trivial

end Steps

/-- The file of a path is filled as far as it should be: wholly, or as far as a call has come that is
writing it. All calls that write it have the same node open. -/
structure Standing (X : Storage) (S : Set Bytes) (c : Config) (p : Path) (new : NewImage)
    (m node : ℕ) : Prop where
  made : new.Made X S
  path : X.newPath new = p
  entry : c.shared.volume.entries p = some node
  filled : Filled (c.shared.volume.content node) new.bytes m
  writers : ∀ i new' row n offset, c.calls i = .writing new' row n offset →
    X.newPath new' = p → n = node
  progress : m = new.bytes.length ∨
    ∃ i new' row, c.calls i = .writing new' row node m ∧ X.newPath new' = p

def Needed (X : Storage) (c : Config) (p : Path) : Prop :=
  (∃ r ∈ c.shared.image, X.imagePath r.cols = p) ∨ ∃ i, (c.calls i).Relies X p

structure Inv (X : Storage) (S : Set Bytes) (c : Config) : Prop where
  sound : c.shared.volume.Sound
  fits : ∀ i, (c.calls i).Fits X S
  rows : ∀ r ∈ c.shared.image, ∃ new : NewImage, new.Made X S ∧ ∃ t, r.cols = new.image t
  /-- a node that a call has open belongs to no other path -/
  nodes : ∀ i new row node offset, c.calls i = .writing new row node offset →
    node < c.shared.volume.nodes ∧
      ∀ p, c.shared.volume.entries p = some node → p = X.newPath new
  standing : ∀ p, Needed X c p → ∃ new m node, Standing X S c p new m node

section Invariant

variable {X : Storage} {S : Set Bytes} {c d : Config} {i : ℕ} {w : World} {l : Call} {p : Path}
  {new : NewImage} {m node : ℕ}

def after (c : Config) (i : ℕ) (w : World) (l : Call) : Config :=
  ⟨w, Function.update c.calls i l, c.log ++ []⟩

theorem needed_of_after (h : Needed X (after c i w l) p) (hi : w.image = c.shared.image)
    (hl : l.Relies X p → (c.calls i).Relies X p) : Needed X c p := by
  rcases h with ⟨r, hr, hp⟩ | ⟨j, hj⟩
  · exact .inl ⟨r, hi ▸ hr, hp⟩
  · by_cases hji : j = i
    · subst hji
      exact .inr ⟨j, hl (by simpa [after] using hj)⟩
    · exact .inr ⟨j, by simpa [after, Function.update_of_ne hji] using hj⟩

/-- A step that leaves the file and its writers alone. -/
theorem Standing.frame (h : Standing X S c p new m node)
    (hentry : w.volume.entries p = c.shared.volume.entries p)
    (hcontent : w.volume.content node = c.shared.volume.content node)
    (hbefore : ∀ new' row n offset, c.calls i = .writing new' row n offset → X.newPath new' ≠ p)
    (hafter : ∀ new' row n offset, l = .writing new' row n offset → X.newPath new' ≠ p) :
    Standing X S (after c i w l) p new m node := by
  refine ⟨h.made, h.path, hentry.trans h.entry, ?_, ?_, ?_⟩
  · show Filled (w.volume.content node) new.bytes m
    rw [hcontent]
    exact h.filled
  · intro j new' row n offset hj hp
    by_cases hji : j = i
    · subst hji
      exact absurd hp (hafter new' row n offset (by simpa [after] using hj))
    · exact h.writers j new' row n offset (by simpa [after, Function.update_of_ne hji] using hj) hp
  · refine h.progress.imp_right ?_
    rintro ⟨j, new', row, hj, hp⟩
    have hji : j ≠ i := by
      rintro rfl
      exact hbefore new' row node m hj hp
    exact ⟨j, new', row, by simpa [after, Function.update_of_ne hji] using hj, hp⟩

section Files

variable (hI : Inv X S c)

include hI

theorem standing_none (hv : w.volume = c.shared.volume) (hi : w.image = c.shared.image)
    (hl : ∀ new row node offset, c.calls i ≠ .writing new row node offset)
    (hl' : ∀ p, ¬l.Relies X p) (hp : Needed X (after c i w l) p) :
    ∃ new m node, Standing X S (after c i w l) p new m node := by
  obtain ⟨new, m, node, h⟩ := hI.standing p (needed_of_after hp hi fun hr => absurd hr (hl' p))
  refine ⟨new, m, node, h.frame (by rw [hv]) (by rw [hv]) ?_ ?_⟩
  · intro new' row n offset hcall
    exact absurd hcall (hl new' row n offset)
  · rintro new' row n offset rfl hpath
    exact hl' p hpath

theorem standing_opened {row : Row Image} (hcall : c.calls i = .opening new row)
    (hp : Needed X (after c i
      { c.shared with volume := (c.shared.volume.create (X.newPath new)).1 }
      (.writing new row (c.shared.volume.create (X.newPath new)).2 0)) p) :
    ∃ new' m node, Standing X S (after c i
      { c.shared with volume := (c.shared.volume.create (X.newPath new)).1 }
      (.writing new row (c.shared.volume.create (X.newPath new)).2 0)) p new' m node := by
  have hmade : new.Made X S := by
    have hfits := hI.fits i
    rw [hcall] at hfits
    exact hfits.1
  by_cases hpath : X.newPath new = p
  · -- the file is emptied, and this call begins to fill it
    subst hpath
    refine ⟨new, 0, (c.shared.volume.create (X.newPath new)).2, hmade, rfl, ?_, ?_, ?_, ?_⟩
    · simp [after, Volume.entries_create]
    · simpa [after, Volume.content_create] using Filled.nil
    · intro j new' row' n offset hj hsame
      by_cases hji : j = i
      · subst hji
        have hj : Call.writing new row (c.shared.volume.create (X.newPath new)).2 0 =
            .writing new' row' n offset := by simpa [after] using hj
        cases hj
        rfl
      · have hj : c.calls j = .writing new' row' n offset := by
          simpa [after, Function.update_of_ne hji] using hj
        have hneeded : Needed X c (X.newPath new) := .inr ⟨j, by rw [hj]; exact hsame⟩
        obtain ⟨_, _, node, hstanding⟩ := hI.standing _ hneeded
        have hnode := hstanding.writers j new' row' n offset hj hsame
        rcases Volume.create_node (v := c.shared.volume) (p := X.newPath new) with
          hsome | ⟨hnone, -⟩
        · rw [hstanding.entry] at hsome
          rw [hnode]
          exact Option.some.inj hsome
        · rw [hstanding.entry] at hnone
          cases hnone
    · exact .inr ⟨i, new, row, by simp [after], rfl⟩
  · obtain ⟨new', m, node, h⟩ := hI.standing p (needed_of_after hp rfl fun hr => absurd hr hpath)
    have hnode : (c.shared.volume.create (X.newPath new)).2 ≠ node := by
      rintro rfl
      rcases Volume.create_node (v := c.shared.volume) (p := X.newPath new) with
        hsome | ⟨-, hnew⟩
      · exact hpath (hI.sound.inj _ _ _ hsome h.entry)
      · have hlt := hI.sound.lt _ _ h.entry
        omega
    refine ⟨new', m, node, h.frame ?_ ?_ ?_ ?_⟩
    · simp [Volume.entries_create, Function.update_of_ne (Ne.symm hpath)]
    · simp [Volume.content_create, Function.update_of_ne (Ne.symm hnode)]
    · simp [hcall]
    · intro new'' row' n offset heq
      cases heq
      exact hpath

theorem standing_wrote {row : Row Image} {offset n : ℕ} (hinj : Set.InjOn X.fileHash S)
    (hcall : c.calls i = .writing new row node offset) (hn : offset + n ≤ new.bytes.length)
    (hp : Needed X (after c i
      { c.shared with volume :=
          c.shared.volume.write node offset ((new.bytes.drop offset).take n) }
      (.writing new row node (offset + n))) p) :
    ∃ new' m node', Standing X S (after c i
      { c.shared with volume :=
          c.shared.volume.write node offset ((new.bytes.drop offset).take n) }
      (.writing new row node (offset + n))) p new' m node' := by
  have hmade : new.Made X S := by
    have hfits := hI.fits i
    rw [hcall] at hfits
    exact hfits.1
  obtain ⟨new', m, node', h⟩ := hI.standing p (needed_of_after hp rfl fun hr => by
    rw [hcall]
    exact hr)
  by_cases hpath : X.newPath new = p
  · -- the bytes are the same, whoever writes them
    have hbytes : new'.bytes = new.bytes :=
      hinj h.made.bytes hmade.bytes (h.made.eq_of_newPath hmade (h.path.trans hpath.symm)).1
    have hnode : node = node' := h.writers i new row node offset hcall hpath
    subst hnode
    have hlength : ((new.bytes.drop offset).take n).length = n := by
      rw [List.length_take, List.length_drop]
      omega
    have hchunk : (new.bytes.drop offset).take n <+: new'.bytes.drop offset := by
      rw [hbytes]
      exact List.take_prefix _ _
    have hentry : (after c i
        { c.shared with volume :=
            c.shared.volume.write node offset ((new.bytes.drop offset).take n) }
        (.writing new row node (offset + n))).shared.volume.entries p = some node := h.entry
    have hwriters : ∀ j new'' row' k o, (after c i
        { c.shared with volume :=
            c.shared.volume.write node offset ((new.bytes.drop offset).take n) }
        (.writing new row node (offset + n))).calls j = .writing new'' row' k o →
        X.newPath new'' = p → k = node := by
      intro j new'' row' k o hj hsame
      by_cases hji : j = i
      · subst hji
        have hj : Call.writing new row node (offset + n) = .writing new'' row' k o := by
          simpa [after] using hj
        cases hj
        rfl
      · exact h.writers j new'' row' k o (by simpa [after, Function.update_of_ne hji] using hj) hsame
    by_cases hprogress : m = offset ∧ m ≠ new'.bytes.length
    · obtain ⟨rfl, -⟩ := hprogress
      refine ⟨new', m + n, node, h.made, h.path, hentry, ?_, hwriters, ?_⟩
      · have hfilled := h.filled.writeNext hchunk (by rw [hbytes]; omega)
        rw [hlength] at hfilled
        simpa [after] using hfilled
      · exact .inr ⟨i, new, row, by simp [after], hpath⟩
    · refine ⟨new', m, node, h.made, h.path, hentry, ?_, hwriters, ?_⟩
      · have hfilled := h.filled.writeAt hchunk (by rw [hbytes]; omega)
        simpa [after] using hfilled
      · rcases h.progress with hm | ⟨j, new'', row', hj, hsame⟩
        · exact .inl hm
        · by_cases hji : j = i
          · subst hji
            rw [hcall] at hj
            cases hj
            by_cases hm : offset = new'.bytes.length
            · exact .inl hm
            · exact absurd ⟨rfl, hm⟩ hprogress
          · exact .inr ⟨j, new'', row', by simpa [after, Function.update_of_ne hji] using hj, hsame⟩
  · have hnode : node ≠ node' := by
      rintro rfl
      exact hpath ((hI.nodes i new row node offset hcall).2 p h.entry).symm
    refine ⟨new', m, node', h.frame rfl ?_ ?_ ?_⟩
    · simp [Function.update_of_ne (Ne.symm hnode)]
    · intro new'' row' k o heq
      rw [hcall] at heq
      cases heq
      exact hpath
    · intro new'' row' k o heq
      cases heq
      exact hpath

theorem standing_finished {row : Row Image} (hinj : Set.InjOn X.fileHash S)
    (hcall : c.calls i = .writing new row node new.bytes.length)
    (hp : Needed X (after c i c.shared (.finishing row true)) p) :
    ∃ new' m node', Standing X S (after c i c.shared (.finishing row true)) p new' m node' := by
  obtain ⟨hmade, ⟨t, hrow⟩, -⟩ : new.Made X S ∧ (∃ t, row.cols = new.image t) ∧ _ := by
    have hfits := hI.fits i
    rwa [hcall] at hfits
  obtain ⟨new', m, node', h⟩ := hI.standing p (needed_of_after hp rfl fun hr => by
    rw [hcall]
    change X.imagePath row.cols = p at hr
    rw [hrow, hmade.imagePath_eq] at hr
    exact hr)
  refine ⟨new', m, node', h.made, h.path, h.entry, h.filled, ?_, ?_⟩
  · intro j new'' row' k o hj hsame
    by_cases hji : j = i
    · subst hji
      simp [after] at hj
    · exact h.writers j new'' row' k o (by simpa [after, Function.update_of_ne hji] using hj) hsame
  · rcases h.progress with hm | ⟨j, new'', row', hj, hsame⟩
    · exact .inl hm
    · by_cases hji : j = i
      · -- it was this call that filled the file, and it has come to the end
        subst hji
        rw [hcall] at hj
        cases hj
        rw [hinj h.made.bytes hmade.bytes (h.made.eq_of_newPath hmade (h.path.trans hsame.symm)).1]
        exact .inl rfl
      · exact .inr ⟨j, new'', row', by simpa [after, Function.update_of_ne hji] using hj, hsame⟩

/-- What nobody needs may be given up. -/
theorem standing_quit {row : Row Image} {offset : ℕ}
    (hcall : c.calls i = .writing new row node offset)
    (hl : l = .done false ∨ l = .removing new)
    (hothers : ∀ j, j ≠ i → ¬(c.calls j).Relies X (X.newPath new))
    (hrows : ∀ r ∈ c.shared.image, X.imagePath r.cols ≠ X.newPath new)
    (hp : Needed X (after c i c.shared l) p) :
    ∃ new' m node', Standing X S (after c i c.shared l) p new' m node' := by
  have hl' : ∀ q, ¬l.Relies X q := by
    rcases hl with rfl | rfl <;> exact fun _ => id
  have hpath : X.newPath new ≠ p := by
    rintro rfl
    rcases hp with ⟨r, hr, hpr⟩ | ⟨j, hj⟩
    · exact hrows r hr hpr
    · by_cases hji : j = i
      · subst hji
        exact hl' _ (by simpa [after] using hj)
      · exact hothers j hji (by simpa [after, Function.update_of_ne hji] using hj)
  obtain ⟨new', m, node', h⟩ :=
    hI.standing p (needed_of_after hp rfl fun hr => absurd hr (hl' p))
  refine ⟨new', m, node', h.frame rfl rfl ?_ ?_⟩
  · intro new'' row' k o heq
    rw [hcall] at heq
    cases heq
    exact hpath
  · rcases hl with rfl | rfl <;> simp

theorem standing_removed (hcall : c.calls i = .removing new)
    (hothers : ∀ j, j ≠ i → ¬(c.calls j).Relies X (X.newPath new))
    (hrows : ∀ r ∈ c.shared.image, X.imagePath r.cols ≠ X.newPath new)
    (hp : Needed X (after c i
      { c.shared with volume := c.shared.volume.remove (X.newPath new) } (.done false)) p) :
    ∃ new' m node', Standing X S (after c i
      { c.shared with volume := c.shared.volume.remove (X.newPath new) } (.done false)) p new' m
      node' := by
  have hpath : X.newPath new ≠ p := by
    rintro rfl
    rcases hp with ⟨r, hr, hpr⟩ | ⟨j, hj⟩
    · exact hrows r hr hpr
    · by_cases hji : j = i
      · subst hji
        simp [after, Call.Relies] at hj
      · exact hothers j hji (by simpa [after, Function.update_of_ne hji] using hj)
  obtain ⟨new', m, node', h⟩ := hI.standing p (needed_of_after hp rfl fun hr => hr.elim)
  refine ⟨new', m, node', h.frame ?_ rfl ?_ ?_⟩
  · simp [Function.update_of_ne (Ne.symm hpath)]
  · simp [hcall]
  · simp

theorem standing_committed {row : Row Image} (hcall : c.calls i = .finishing row true)
    (hp : Needed X (after c i { c.shared with image := c.shared.image ++ [row] } (.done true)) p) :
    ∃ new' m node', Standing X S
      (after c i { c.shared with image := c.shared.image ++ [row] } (.done true)) p new' m
      node' := by
  have hneeded : Needed X c p := by
    rcases hp with ⟨r, hr, hpr⟩ | ⟨j, hj⟩
    · rcases List.mem_append.mp hr with hr | hr
      · exact .inl ⟨r, hr, hpr⟩
      · -- the call needed the file of the row that it commits
        rw [List.mem_singleton.mp hr] at hpr
        exact .inr ⟨i, by rw [hcall]; exact hpr⟩
    · by_cases hji : j = i
      · subst hji
        simp [after, Call.Relies] at hj
      · exact .inr ⟨j, by simpa [after, Function.update_of_ne hji] using hj⟩
  obtain ⟨new', m, node', h⟩ := hI.standing p hneeded
  refine ⟨new', m, node', h.frame rfl rfl ?_ ?_⟩
  · simp [hcall]
  · simp

end Files

/-- The uploads bring bytes out of `S`, and a name for their format. -/
def Known (S : Set Bytes) (a : Act Input Env) : Prop :=
  ∀ i parsed uploadedBy, a = .call i (.upload parsed uploadedBy) →
    parsed.bytes ∈ S ∧ parsed.extension ≠ ""

theorem standing_after {x : Input} {before : Call} (hinj : Set.InjOn X.fileHash S)
    (hI : Inv X S c) (hg : Harmless X c (.call i x)) (hcall : c.calls i = before)
    (h : Effect X c.shared x before w l) (hp : Needed X (after c i w l) p) :
    ∃ new m node, Standing X S (after c i w l) p new m node := by
  cases h with
  | none hv hi hl hl' =>
    exact standing_none hI hv hi (fun new row node offset heq => hl _ _ _ _ (hcall ▸ heq)) hl' hp
  | opened => exact standing_opened hI hcall hp
  | wrote hn => exact standing_wrote hI hinj hcall hn hp
  | finished => exact standing_finished hI hinj hcall hp
  | quit hx hl' =>
    obtain ⟨hothers, hrows⟩ := hg i _ (.inl ⟨by rcases hx with rfl | rfl <;> simp, _, _, _, hcall⟩)
    exact standing_quit hI hcall hl' hothers hrows hp
  | removed hx =>
    obtain ⟨hothers, hrows⟩ := hg i _ (.inr ⟨by rw [hx], hcall⟩)
    exact standing_removed hI hcall hothers hrows hp
  | committed => exact standing_committed hI hcall hp

/-- A node that is open stays with its path. -/
theorem nodes_after {x : Input} {before : Call} (hI : Inv X S c) (hcall : c.calls i = before)
    (h : Effect X c.shared x before w l) {j : ℕ} {row : Row Image} {offset : ℕ}
    (hj : (after c i w l).calls j = .writing new row node offset) :
    node < w.volume.nodes ∧ ∀ p, w.volume.entries p = some node → p = X.newPath new := by
  by_cases hji : j = i
  · subst hji
    have hj : l = .writing new row node offset := by simpa [after] using hj
    subst hj
    cases h with
    | none hv hi hl hl' => exact absurd rfl (hl' (X.newPath new))
    | opened =>
      refine ⟨Volume.create_lt hI.sound, fun p hp => ?_⟩
      exact hI.sound.create.inj p _ _ hp (by simp [Volume.entries_create])
    | wrote hn => exact hI.nodes j new row node _ hcall
    | quit hx hl' => rcases hl' with hl' | hl' <;> cases hl'
  · have hj : c.calls j = .writing new row node offset := by
      simpa [after, Function.update_of_ne hji] using hj
    obtain ⟨hlt, hown⟩ := hI.nodes j new row node offset hj
    cases h with
    | none hv hi hl hl' =>
      rw [hv]
      exact ⟨hlt, hown⟩
    | opened =>
      exact ⟨Nat.lt_of_lt_of_le hlt Volume.nodes_le_create,
        fun p hp => hown p (Volume.of_entries_create hlt hp)⟩
    | wrote hn => exact ⟨hlt, hown⟩
    | finished => exact ⟨hlt, hown⟩
    | quit hx hl' => exact ⟨hlt, hown⟩
    | removed hx => exact ⟨hlt, fun p hp => hown p (Volume.of_entries_remove hp)⟩
    | committed => exact ⟨hlt, hown⟩

theorem sound_after {x : Input} {before : Call} (hI : Inv X S c)
    (h : Effect X c.shared x before w l) : w.volume.Sound := by
  cases h with
  | none hv hi hl hl' =>
    rw [hv]
    exact hI.sound
  | opened => exact hI.sound.create
  | wrote hn => exact hI.sound.write
  | removed hx => exact hI.sound.remove
  | finished => exact hI.sound
  | quit => exact hI.sound
  | committed => exact hI.sound

theorem rows_after {x : Input} {before : Call} (hI : Inv X S c) (hcall : c.calls i = before)
    (h : Effect X c.shared x before w l) :
    ∀ r ∈ w.image, ∃ new : NewImage, new.Made X S ∧ ∃ t, r.cols = new.image t := by
  cases h with
  | none hv hi hl hl' =>
    rw [hi]
    exact hI.rows
  | committed =>
    intro r hr
    rcases List.mem_append.mp hr with hr | hr
    · exact hI.rows r hr
    · rw [List.mem_singleton.mp hr]
      have hfits := hI.fits i
      rwa [hcall] at hfits
  | opened => exact hI.rows
  | wrote hn => exact hI.rows
  | removed hx => exact hI.rows
  | finished => exact hI.rows
  | quit => exact hI.rows

theorem Inv.next {a : Act Input Env} (hinj : Set.InjOn X.fileHash S) (hI : Inv X S c)
    (hg : Harmless X c a) (hk : Known S a) (hn : (system X).next c a = some d) : Inv X S d := by
  cases a with
  | env b =>
    obtain ⟨w, hw, rfl⟩ := System.next_env_eq_some.mp hn
    cases b
    cases hw
    exact ⟨hI.sound, hI.fits, hI.rows, hI.nodes, fun p hp => by
      obtain ⟨new, m, node, h⟩ := hI.standing p hp
      exact ⟨new, m, node, h.made, h.path, h.entry, h.filled, h.writers, h.progress⟩⟩
  | call i x =>
    obtain ⟨w, l, es, he, rfl⟩ := System.next_call_eq_some.mp hn
    obtain ⟨r, hr, heq⟩ := Option.map_eq_some_iff.mp he
    cases heq
    obtain ⟨w, l⟩ := r
    have heffect := exec_effect hr
    refine ⟨sound_after hI heffect, ?_, rows_after hI rfl heffect,
      fun j new row node offset hj => nodes_after hI rfl heffect hj,
      fun p hp => standing_after hinj hI hg rfl heffect hp⟩
    intro j
    by_cases hji : j = i
    · subst hji
      have hupload : ∀ parsed uploadedBy, x = .upload parsed uploadedBy →
          parsed.bytes ∈ S ∧ parsed.extension ≠ "" :=
        fun parsed uploadedBy hx => hk j parsed uploadedBy (by rw [hx])
      have hfits : l.Fits X S := exec_fits hupload hI.rows (hI.fits j) hr
      simpa using hfits
    · simpa [Function.update_of_ne hji] using hI.fits j

end Invariant

end Thcdb.Images
