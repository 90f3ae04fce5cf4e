import Mathlib.Algebra.BigOperators.Group.Finset.Piecewise
import Mathlib.Data.Rat.Defs
import Thcdb.Interleaving.History
import Thcdb.TagVotes.Ballots

namespace Thcdb.TagVotes
open Catalog Paging Relational Interleaving
open Catalog.ArtistReleases (CursorResponse)

def Event.user : Event → ℤ
  | .voted _ b .. | .deleted _ b => b.userId

/-- What an event says of a ballot: the vote, or that there is none. -/
def Event.writes (b : Ballot) : Event → Option (Option (Score × ℕ))
  | .voted _ b' score votedAt => if b' = b then some (some (score, votedAt)) else none
  | .deleted _ b' => if b' = b then some none else none

/-- The last vote of a user on a tag, unless it was taken back since. -/
def standing (log : List Event) (b : Ballot) : Option (Score × ℕ) :=
  (lastWrite (Event.writes b) log).getD none

def voters (log : List Event) (entityType : EntityType) (entityId tagId : ℤ) : Finset ℤ :=
  (log.map Event.user).toFinset.filter fun userId =>
    (standing log ⟨entityType, entityId, tagId, userId⟩).isSome

def scoreOf (log : List Event) (entityType : EntityType) (entityId tagId userId : ℤ) : ℤ :=
  ((standing log ⟨entityType, entityId, tagId, userId⟩).map fun vote => vote.1.asI16).getD 0

section Standing
variable {log : List Event} {e : Event} {b : Ballot} {entityType : EntityType}
  {entityId tagId userId : ℤ}

@[simp] theorem standing_nil : standing [] b = none := rfl

theorem standing_snoc : standing (log ++ [e]) b = (e.writes b).getD (standing log b) := by
  rw [standing, standing, lastWrite, lastWrite, List.filterMap_append]
  cases h : e.writes b with
  | none => simp [List.filterMap_cons_none h]
  | some vote => simp [List.filterMap_cons_some h]

theorem user_mem_of_standing (h : (standing log b).isSome) : b.userId ∈ log.map Event.user := by
  induction log using List.reverseRecOn with
  | nil => simp at h
  | append_singleton log e ih =>
    rw [List.map_append, List.mem_append]
    rw [standing_snoc] at h
    cases hwrites : e.writes b with
    | none =>
      rw [hwrites] at h
      exact .inl (ih h)
    | some vote =>
      right
      cases e with
      | voted i b' =>
        simp only [Event.writes] at hwrites
        split_ifs at hwrites with hb
        simp [Event.user, hb]
      | deleted i b' =>
        simp only [Event.writes] at hwrites
        split_ifs at hwrites with hb
        simp [Event.user, hb]

theorem mem_voters : userId ∈ voters log entityType entityId tagId ↔
    (standing log ⟨entityType, entityId, tagId, userId⟩).isSome := by
  rw [voters, Finset.mem_filter, List.mem_toFinset]
  exact ⟨fun h => h.2, fun h => ⟨user_mem_of_standing h, h⟩⟩

end Standing

section Steps
variable {F : Type} {sql : Sql F} {c c₀ d : Config F} {w w' : World} {l l' : Call F}
  {as : List (Act Input Env)} {entityType : EntityType} {votes : List TagVote} {i : ℕ}

@[simp] theorem voteTable_setVotes {other : EntityType} :
    voteTable (w.setVotes entityType votes).db other =
      if other = entityType then votes else voteTable w.db other := by
  cases entityType <;> cases other <;> rfl

@[simp] theorem refers_setVotes {other : EntityType} {k : VoteKey} :
    (w.setVotes entityType votes).refers other k = w.refers other k := by
  cases entityType <;> rfl

/-- The tables hold the votes that stand: one for each ballot, with its last score. -/
structure Tallied (w : World) (log : List Event) : Prop where
  nodup : ∀ entityType, ((voteTable w.db entityType).map TagVote.key).Nodup
  refers : ∀ entityType, ∀ v ∈ voteTable w.db entityType, w.refers entityType v.key
  holds : ∀ b : Ballot, (lookupBy TagVote.key (voteTable w.db b.entityType) b.key).map
    (fun v => (v.score, v.votedAt)) = (standing log b).map fun vote => (vote.1.asI16, vote.2)

inductive Writes (i : ℕ) (w : World) : World → List Event → Prop
  | nothing : Writes i w w []
  | voted (b : Ballot) (score : Score) (hrefers : w.refers b.entityType b.key) : Writes i w
      (w.setVotes b.entityType (upsert TagVote.key
        ⟨b.entityId, b.tagId, b.userId, score.asI16, w.clock⟩
        (fun v => { v with score := score.asI16, votedAt := w.clock })
        (voteTable w.db b.entityType))) [.voted i b score w.clock]
  | deleted (b : Ballot) : Writes i w
      (w.setVotes b.entityType (eraseBy TagVote.key b.key (voteTable w.db b.entityType)))
      [.deleted i b]

theorem writes_of_statement {r : World × Call F × List Event}
    (h : statement sql i w l = some r) : Writes i w r.1 r.2.2 := by
  cases l with
  | idle | voted | deleted | shown | failed => cases h
  | findEntity b score | findTag b score =>
    simp only [statement] at h
    split at h <;> cases h <;> exact .nothing
  | insert b score =>
    simp only [statement] at h
    split at h <;> cases h
    · next hrefers => exact .voted b score hrefers
    · exact .nothing
  | delete b =>
    cases h
    exact .deleted b
  | select q | selectVotes q page =>
    cases h
    exact .nothing

theorem writes_of_exec {a : Input} {r : World × Call F × List Event}
    (h : exec sql i a w l = some r) : Writes i w r.1 r.2.2 := by
  unfold exec at h
  split at h
  · cases h
    exact .nothing
  · cases h
    exact .nothing
  · cases h
    exact .nothing
  · exact writes_of_statement h
  all_goals
    cases h
    try exact .nothing

theorem ballot_eq_iff {b b' : Ballot} : b' = b ↔ b'.entityType = b.entityType ∧ b'.key = b.key := by
  cases b
  cases b'
  simp [Ballot.key]

theorem Tallied.writes {log es : List Event} (h : Tallied w log) (hw : Writes i w w' es) :
    Tallied w' (log ++ es) := by
  cases hw with
  | nothing => simpa using h
  | voted b score hrefers =>
    have hkey : ∀ v : TagVote,
        TagVote.key { v with score := score.asI16, votedAt := w.clock } = v.key := fun _ => rfl
    refine ⟨fun other => ?_, fun other => ?_, fun other => ?_⟩
    · rw [voteTable_setVotes]
      split_ifs with ho
      · exact nodup_upsert hkey (h.nodup b.entityType)
      · exact h.nodup other
    · rw [voteTable_setVotes]
      simp only [refers_setVotes]
      split_ifs with ho
      · subst ho
        exact forall_upsert hrefers (fun v hv => hv) (h.refers b.entityType)
      · exact h.refers other
    · rw [voteTable_setVotes, standing_snoc]
      have hrow : TagVote.key ⟨b.entityId, b.tagId, b.userId, score.asI16, w.clock⟩ = b.key := rfl
      by_cases hsame : b = other
      · subst hsame
        rw [if_pos rfl, lookupBy_upsert hkey, hrow, Function.update_self]
        cases lookupBy TagVote.key (voteTable w.db b.entityType) b.key with
        | none => simp [Event.writes]
        | some v => simp [Event.writes]
      · simp only [Event.writes, if_neg hsame, Option.getD_none]
        rw [← h.holds other]
        split_ifs with ho
        · have hne : other.key ≠ b.key := fun hk => hsame (ballot_eq_iff.mpr ⟨ho.symm, hk.symm⟩)
          rw [lookupBy_upsert hkey, hrow, Function.update_of_ne hne, ho]
        · rfl
  | deleted b =>
    refine ⟨fun other => ?_, fun other => ?_, fun other => ?_⟩
    · rw [voteTable_setVotes]
      split_ifs with ho
      · exact nodup_eraseBy (h.nodup b.entityType)
      · exact h.nodup other
    · rw [voteTable_setVotes]
      simp only [refers_setVotes]
      split_ifs with ho
      · subst ho
        exact fun v hv => h.refers b.entityType v (List.mem_filter.mp hv).1
      · exact h.refers other
    · rw [voteTable_setVotes, standing_snoc]
      by_cases hsame : b = other
      · subst hsame
        rw [if_pos rfl, lookupBy_eraseBy, Function.update_self]
        simp [Event.writes]
      · simp only [Event.writes, if_neg hsame, Option.getD_none]
        rw [← h.holds other]
        split_ifs with ho
        · have hne : other.key ≠ b.key := fun hk => hsame (ballot_eq_iff.mpr ⟨ho.symm, hk.symm⟩)
          rw [lookupBy_eraseBy, Function.update_of_ne hne, ho]
        · rfl

theorem Tallied.env {log : List Event} {b : Env} (h : Tallied w log)
    (hw : TagVotes.env b w = some w') : Tallied w' log := by
  cases b with
  | tick d =>
    cases hw
    exact ⟨h.nodup, h.refers, h.holds⟩
  | writeTables artist release song tag user =>
    simp only [TagVotes.env] at hw
    split at hw <;> cases hw
    next hall =>
      refine ⟨h.nodup, fun entityType v hv => ?_, h.holds⟩
      rw [List.all_eq_true] at hall
      have htable := hall entityType (by cases entityType <;> simp)
      exact List.all_eq_true.mp htable v hv

theorem tallied_of_reachable (h0 : c₀.Initial) (h : (system sql).Reachable c₀ c) :
    Tallied c.shared c.log := by
  refine h.induction (I := fun x => Tallied x.shared x.log) ?_ ?_
  · intro x a y hx hn
    cases a with
    | env b =>
      obtain ⟨w, hw, rfl⟩ := System.next_env_eq_some.mp hn
      exact hx.env hw
    | call i a =>
      obtain ⟨w, l, es, he, rfl⟩ := System.next_call_eq_some.mp hn
      exact hx.writes (writes_of_exec he)
  · rw [h0.log]
    exact ⟨fun entityType => by simp [h0.votes], fun entityType => by simp [h0.votes],
      fun b => by simp [h0.votes, lookupBy]⟩

end Steps

section Counts
variable {w : World} {log : List Event} {entityType : EntityType} {entityId tagId : ℤ} {t : Row Tag}
  {v : TagVote}

def votesOn (db : VoteTables) (entityType : EntityType) (entityId tagId : ℤ) : List TagVote :=
  (voteTable db entityType).filter fun v => v.entityId = entityId && v.tagId = tagId

theorem filter_rows_id {C : Type} {table : Table C} {r : Row C} (hr : r ∈ table.rows) :
    table.rows.filter (fun s => r.id = s.id) = [r] := by
  have hnodup : (table.rows.filter fun s => r.id = s.id).Nodup := (nodup_rows table).filter _
  have hperm : (table.rows.filter fun s => r.id = s.id).Perm [r] := by
    rw [List.perm_ext_iff_of_nodup hnodup (List.nodup_singleton r)]
    intro s
    simp only [List.mem_filter, decide_eq_true_eq, List.mem_singleton]
    constructor
    · rintro ⟨hs, hid⟩
      exact Table.eq_of_id hs hr hid.symm
    · rintro rfl
      exact ⟨hr, rfl⟩
  exact List.perm_singleton.mp hperm

/-- A group has the votes on its tag. -/
theorem groupVotes_eq {db : VoteTables} (ht : t ∈ db.tag.rows) :
    groupVotes db entityType entityId (tagKey t) = votesOn db entityType entityId t.id := by
  have hone : ∀ v : TagVote, (((db.tag.rows.filter fun s => v.tagId = s.id).map fun s =>
      (v, s)).filter fun p => tagKey p.2 = tagKey t).map Prod.fst =
        if v.tagId = t.id then [v] else [] := by
    intro v
    split_ifs with hv
    · rw [hv, filter_rows_id ht]
      simp
    · rw [List.map_eq_nil_iff, List.filter_eq_nil_iff]
      intro p hp
      obtain ⟨s, hs, rfl⟩ := List.mem_map.mp hp
      have hsid : v.tagId = s.id := by simpa using (List.mem_filter.mp hs).2
      simp only [decide_eq_true_eq]
      exact fun hkey => hv (hsid.trans (congrArg TagKey.id hkey))
  rw [groupVotes, joinedVotes, List.filter_flatMap, List.map_flatMap, votesOn]
  simp only [hone]
  induction voteTable db entityType with
  | nil => rfl
  | cons v votes ih =>
    by_cases hentity : v.entityId = entityId <;> by_cases htag : v.tagId = t.id <;>
      simp [hentity, htag, ih]

theorem mem_votesOn {db : VoteTables} : v ∈ votesOn db entityType entityId tagId ↔
    v ∈ voteTable db entityType ∧ v.entityId = entityId ∧ v.tagId = tagId := by
  simp [votesOn]

/-- A user votes on a tag once. -/
theorem Tallied.nodup_users (h : Tallied w log) :
    ((votesOn w.db entityType entityId tagId).map TagVote.userId).Nodup := by
  have hkeys : ((votesOn w.db entityType entityId tagId).map TagVote.key).Nodup :=
    (h.nodup entityType).sublist (List.filter_sublist.map _)
  rw [List.nodup_map_iff_inj_on (List.Nodup.of_map _ hkeys)]
  intro v hv v' hv' huser
  apply List.inj_on_of_nodup_map hkeys hv hv'
  obtain ⟨-, hentity, htag⟩ := mem_votesOn.mp hv
  obtain ⟨-, hentity', htag'⟩ := mem_votesOn.mp hv'
  simp [TagVote.key, hentity, hentity', htag, htag', huser]

/-- The rows on a tag are the votes on it that stand. -/
theorem Tallied.standing_of_mem (h : Tallied w log)
    (hv : v ∈ votesOn w.db entityType entityId tagId) :
    (standing log ⟨entityType, entityId, tagId, v.userId⟩).map (fun vote => (vote.1.asI16, vote.2)) =
      some (v.score, v.votedAt) := by
  obtain ⟨hmem, rfl, rfl⟩ := mem_votesOn.mp hv
  rw [← h.holds]
  have hlookup : lookupBy TagVote.key (voteTable w.db entityType) v.key = some v :=
    lookupBy_of_mem (h.nodup entityType) hmem
  exact congrArg (Option.map _) hlookup

theorem Tallied.score_of_mem (h : Tallied w log)
    (hv : v ∈ votesOn w.db entityType entityId tagId) :
    scoreOf log entityType entityId tagId v.userId = v.score := by
  obtain ⟨vote, hvote, heq⟩ := Option.map_eq_some_iff.mp (h.standing_of_mem hv)
  rw [scoreOf, hvote]
  exact congrArg Prod.fst heq

theorem Tallied.exists_vote (h : Tallied w log) {userId : ℤ} :
    userId ∈ voters log entityType entityId tagId ↔
      ∃ v ∈ votesOn w.db entityType entityId tagId, v.userId = userId := by
  rw [mem_voters]
  constructor
  · intro hstanding
    have hmap := h.holds ⟨entityType, entityId, tagId, userId⟩
    obtain ⟨vote, hvote⟩ := Option.isSome_iff_exists.mp hstanding
    rw [hvote] at hmap
    obtain ⟨v, hv, -⟩ := Option.map_eq_some_iff.mp hmap
    have hkey : v.key = ⟨entityId, tagId, userId⟩ := key_of_lookupBy hv
    obtain ⟨hentity, htag, huser⟩ := VoteKey.mk.inj hkey
    exact ⟨v, mem_votesOn.mpr ⟨mem_of_lookupBy hv, hentity, htag⟩, huser⟩
  · rintro ⟨v, hv, rfl⟩
    obtain ⟨vote, hvote, -⟩ := Option.map_eq_some_iff.mp (h.standing_of_mem hv)
    simp [hvote]

theorem Tallied.toFinset_users (h : Tallied w log) :
    ((votesOn w.db entityType entityId tagId).map TagVote.userId).toFinset =
      voters log entityType entityId tagId := by
  ext userId
  rw [List.mem_toFinset, List.mem_map, h.exists_vote]

/-- Whatever is added up over the rows is added up over the voters. -/
theorem Tallied.sum_votesOn {A : Type} [AddCommMonoid A] (h : Tallied w log) (f : ℤ → A) :
    ((votesOn w.db entityType entityId tagId).map fun v => f v.score).sum =
      ∑ userId ∈ voters log entityType entityId tagId,
        f (scoreOf log entityType entityId tagId userId) := by
  rw [← h.toFinset_users, List.sum_toFinset _ h.nodup_users, List.map_map]
  congr 1
  apply List.map_congr_left
  intro v hv
  rw [Function.comp_apply, h.score_of_mem hv]

theorem Tallied.length_votesOn (h : Tallied w log) :
    (votesOn w.db entityType entityId tagId).length =
      (voters log entityType entityId tagId).card := by
  rw [← h.toFinset_users, List.toFinset_card_of_nodup h.nodup_users, List.length_map]

theorem Tallied.positive_votesOn (h : Tallied w log) :
    positiveVoteCount (votesOn w.db entityType entityId tagId) =
      ((voters log entityType entityId tagId).filter fun userId =>
        0 < scoreOf log entityType entityId tagId userId).card := by
  rw [positiveVoteCount, h.sum_votesOn fun score => if score > 0 then 1 else 0, Finset.card_filter]

theorem Tallied.userVote_eq (h : Tallied w log) {userId : Option ℤ} :
    userVote w.db entityType entityId userId tagId = userId.bind fun userId =>
      (standing log ⟨entityType, entityId, tagId, userId⟩).map fun vote => vote.1.asI16 := by
  unfold userVote
  congr 1
  funext userId
  have hfind : (voteTable w.db entityType).find? (fun v =>
      v.entityId = entityId && v.tagId = tagId && v.userId = userId) =
        lookupBy TagVote.key (voteTable w.db entityType) ⟨entityId, tagId, userId⟩ := by
    rw [lookupBy]
    congr 1
    funext v
    simp [TagVote.key, Bool.and_assoc]
  have hmap := congrArg (Option.map Prod.fst) (h.holds ⟨entityType, entityId, tagId, userId⟩)
  rw [hfind]
  simpa [Option.map_map, Function.comp_def, Ballot.key] using hmap

def fitting (log : List Event) (entityType : EntityType) (entityId : ℤ) (t : Row Tag) : Bool :=
  decide (∃ userId ∈ voters log entityType entityId t.id,
    0 < scoreOf log entityType entityId t.id userId)

theorem Tallied.hasPositiveVote_eq (h : Tallied w log) :
    hasPositiveVote w.db entityType entityId t = fitting log entityType entityId t := by
  rw [Bool.eq_iff_iff, fitting, decide_eq_true_eq, hasPositiveVote, List.any_eq_true]
  constructor
  · rintro ⟨v, hv, hvote⟩
    simp only [Bool.and_eq_true, decide_eq_true_eq] at hvote
    have hmem : v ∈ votesOn w.db entityType entityId t.id :=
      mem_votesOn.mpr ⟨hv, hvote.1.1, hvote.1.2⟩
    exact ⟨v.userId, h.exists_vote.mpr ⟨v, hmem, rfl⟩, h.score_of_mem hmem ▸ hvote.2⟩
  · rintro ⟨userId, huser, hpositive⟩
    obtain ⟨v, hmem, rfl⟩ := h.exists_vote.mp huser
    rw [h.score_of_mem hmem] at hpositive
    obtain ⟨hv, hentity, htag⟩ := mem_votesOn.mp hmem
    exact ⟨v, hv, by simp [hentity, htag, hpositive]⟩

end Counts

section Responses
variable {F : Type} {sql : Sql F} {w : World} {log : List Event} {q : TagQuery} {tagId : ℤ}

def userName (w : World) (userId : ℤ) : String :=
  ((w.db.user.findById userId).map Users.UserColumns.name).getD ""

/-- A vote finds its one user. -/
theorem filter_votes {votes : List TagVote} (huser : ∀ v ∈ votes, w.db.user.has v.userId)
    {tagIds : List ℤ} (hmem : tagId ∈ tagIds) {entityId : ℤ} :
    ((((votes.filter fun v => v.entityId = entityId && tagIds.contains v.tagId).flatMap fun v =>
      (w.db.user.rows.filter fun u => v.userId = u.id).map fun u =>
        (⟨v.tagId, u.cols.name, v.score⟩ : TagAggregateVoteRow)).filter fun row =>
          row.tagId = tagId).map fun row => (⟨row.userName, row.score⟩ : TagAggregateVote)) =
      (votes.filter fun v => v.entityId = entityId && v.tagId = tagId).map fun v =>
        ⟨userName w v.userId, v.score⟩ := by
  induction votes with
  | nil => rfl
  | cons v votes ih =>
    obtain ⟨hv, hvotes⟩ := List.forall_mem_cons.mp huser
    obtain ⟨u, hu, hid⟩ := Table.has_iff.mp hv
    have hone : w.db.user.rows.filter (fun s => v.userId = s.id) = [u] := by
      rw [← hid]
      exact filter_rows_id hu
    have hname : userName w v.userId = u.cols.name := by
      rw [userName, ← hid, Table.findById_of_mem hu]
      rfl
    have ih := ih hvotes
    by_cases hentity : v.entityId = entityId <;> by_cases htag : v.tagId = tagId
    · simpa [hentity, htag, hmem, hone, hname] using ih
    · by_cases hin : v.tagId ∈ tagIds <;> simpa [hentity, htag, hin, hone] using ih
    · simpa [hentity] using ih
    · simpa [hentity] using ih

/-- The single votes on a tag: everyone whose vote stands, by name. -/
theorem Tallied.loadTagVotes_eq (h : Tallied w log) {tagIds : List ℤ} (hmem : tagId ∈ tagIds) :
    (((loadTagVotes sql w.db q.entityType q.entityId tagIds tagId).getD [] :
        List TagAggregateVote) : Multiset TagAggregateVote) =
      (voters log q.entityType q.entityId tagId).val.map fun userId =>
        ⟨userName w userId, scoreOf log q.entityType q.entityId tagId userId⟩ := by
  have huser : ∀ v ∈ voteTable w.db q.entityType, w.db.user.has v.userId := by
    intro v hv
    have hrefers := h.refers q.entityType v hv
    simp only [World.refers, Bool.and_eq_true] at hrefers
    exact hrefers.2
  have hvoters : (voters log q.entityType q.entityId tagId).val =
      ((votesOn w.db q.entityType q.entityId tagId).map TagVote.userId : Multiset ℤ) := by
    rw [← h.toFinset_users, List.toFinset_val, h.nodup_users.dedup]
  have hne : tagIds.isEmpty = false := by
    cases tagIds with
    | nil => cases hmem
    | cons => rfl
  rw [hvoters, Multiset.map_coe, List.map_map]
  simp only [loadTagVotes, hne, Bool.false_eq_true, if_false]
  generalize hfound : ((voteTable w.db q.entityType).filter fun v =>
    v.entityId = q.entityId && tagIds.contains v.tagId).flatMap _ = found
  have hrows : ((found.filter fun row => row.tagId = tagId).map fun row =>
      (⟨row.userName, row.score⟩ : TagAggregateVote)) =
        (votesOn w.db q.entityType q.entityId tagId).map fun v =>
          ⟨userName w v.userId, v.score⟩ := by
    rw [← hfound]
    exact filter_votes huser hmem
  have hscores : (votesOn w.db q.entityType q.entityId tagId).map
      ((fun userId => (⟨userName w userId, scoreOf log q.entityType q.entityId tagId userId⟩ :
        TagAggregateVote)) ∘ TagVote.userId) =
        (votesOn w.db q.entityType q.entityId tagId).map fun v =>
          ⟨userName w v.userId, v.score⟩ := by
    apply List.map_congr_left
    intro v hv
    rw [Function.comp_apply, h.score_of_mem hv]
  rw [hscores, ← hrows, Multiset.coe_eq_coe]
  generalize hsorted : found.mergeSort _ = sorted
  have hperm : (sorted.filter fun row => row.tagId = tagId).Perm
      (found.filter fun row => row.tagId = tagId) := by
    rw [← hsorted]
    exact (List.mergeSort_perm found _).filter _
  split_ifs with hempty
  · rw [List.isEmpty_iff] at hempty
    rw [hempty] at hperm
    rw [hperm.symm.eq_nil]
    exact .refl _
  · exact hperm.map _

/-- What a tag is shown with, of the votes that stand. -/
structure Tally (sql : Sql F) (log : List Event) (q : TagQuery) (tag : TagAggregate F) : Prop where
  count : tag.count = (voters log q.entityType q.entityId tag.id).card
  relevance : tag.relevance = sql.div
    (∑ userId ∈ voters log q.entityType q.entityId tag.id,
      scoreOf log q.entityType q.entityId tag.id userId)
    ((voters log q.entityType q.entityId tag.id).filter fun userId =>
      0 < scoreOf log q.entityType q.entityId tag.id userId).card
  userVote : tag.userVote = q.userId.bind fun userId =>
    (standing log ⟨q.entityType, q.entityId, tag.id, userId⟩).map fun vote => vote.1.asI16

theorem Tallied.tally (h : Tallied w log) {row : TagAggregateRow F}
    (hrow : row ∈ (selectTags sql w.db q).rows) (votes : List TagAggregateVote) :
    Tally sql log q
      ⟨row.id, row.name, row.shortDescription, row.count, row.relevance, row.userVote, votes⟩ := by
  have hfound : row ∈ (foundGroups w.db q.entityType q.entityId q.cursor).map
      (aggregateRow sql w.db q.entityType q.entityId q.userId) := by
    unfold selectTags at hrow
    dsimp only at hrow
    split_ifs at hrow
    · exact (List.take_sublist _ _).map _ |>.subset (List.dropLast_subset _ hrow)
    · exact (List.take_sublist _ _).map _ |>.subset hrow
  obtain ⟨group, hgroup, rfl⟩ := List.mem_map.mp hfound
  obtain ⟨t, ht, -, -, rfl⟩ := mem_foundGroups.mp hgroup
  have hvotes : groupVotes w.db q.entityType q.entityId (tagKey t) =
      votesOn w.db q.entityType q.entityId t.id := groupVotes_eq ht
  constructor
  · show (groupVotes w.db q.entityType q.entityId (tagKey t)).length = (voters log _ _ t.id).card
    rw [hvotes, h.length_votesOn]
  · show sql.div ((groupVotes w.db q.entityType q.entityId (tagKey t)).map TagVote.score).sum
      (positiveVoteCount (groupVotes w.db q.entityType q.entityId (tagKey t))) = sql.div _ _
    rw [hvotes, h.positive_votesOn]
    congr 1
    exact h.sum_votesOn id
  · exact h.userVote_eq

theorem Tallied.finds (h : Tallied w log) : ∃ tags,
    Finds (· < ·) w.db.tag (fitting log q.entityType q.entityId) q.cursor tags ∧
      ∀ other, Cut TagAggregate.key tagKey q.limit tags
        (withVotes sql other q (selectTags sql w.db q)) := by
  refine ⟨foundTags w.db q.entityType q.entityId q.cursor, ?_, fun other => ?_⟩
  · have hfinds : Finds (· < ·) w.db.tag (hasPositiveVote w.db q.entityType q.entityId) q.cursor
        (foundTags w.db q.entityType q.entityId q.cursor) := finds_foundTags
    rwa [show hasPositiveVote w.db q.entityType q.entityId =
      fitting log q.entityType q.entityId from funext fun t => h.hasPositiveVote_eq] at hfinds
  · have hcut : Cut TagAggregate.key tagKey q.limit _ _ :=
      cut_getTags sql w.db q.entityType q.entityId q.userId q.cursor q.limit
    rw [getTags_eq] at hcut
    -- the second query does not touch the columns of the first
    refine ⟨?_, hcut.nextCursor⟩
    rw [← hcut.items]
    simp [withVotes, TagAggregate.key]

end Responses

section Main
variable {F : Type} {sql : Sql F} {c₀ c d : Config F} {as : List (Act Input Env)} {i : ℕ}

def Call.Stands (sql : Sql F) (c₀ : Config F) (i : ℕ) (as : List (Act Input Env)) : Call F → Prop
  | .selectVotes q page => (system sql).Once c₀
      (fun _ x => x.calls i = .select q ∧ page = selectTags sql x.shared.db q) as
  | .shown q r => (system sql).Once c₀ (fun bs y => (system sql).Once c₀ (fun _ x =>
      x.calls i = .select q ∧
        ((∃ page, y.calls i = .selectVotes q page) ∨ r.items = [] ∧ y.calls i = .select q) ∧
        r = withVotes sql y.shared.db q (selectTags sql x.shared.db q)) bs) as
  | _ => True

theorem Call.Stands.append {l : Call F} (h : l.Stands sql c₀ i as) (bs : List (Act Input Env)) :
    l.Stands sql c₀ i (as ++ bs) := by
  cases l with
  | selectVotes q page => exact System.Once.append h bs
  | shown q r => exact System.Once.append h bs
  | _ => trivial

theorem stands_of_exec {a : Input} {r : World × Call F × List Event}
    (hrun : (system sql).run c₀ as = some c) (hi : (c.calls i).Stands sql c₀ i as)
    (h : exec sql i a c.shared (c.calls i) = some r) : r.2.1.Stands sql c₀ i as := by
  generalize hcall : c.calls i = l at hi h
  unfold exec at h
  split at h
  · cases h
    trivial
  · cases h
    trivial
  · cases h
    trivial
  · cases l with
    | idle | voted | deleted | shown | failed => cases h
    | findEntity b score | findTag b score | insert b score =>
      simp only [statement] at h
      split at h <;> cases h <;> trivial
    | delete b =>
      cases h
      trivial
    | select q =>
      cases h
      dsimp only
      split_ifs with hempty
      · refine System.once_of_run hrun
          (System.once_of_run hrun ⟨hcall, Or.inr ⟨rfl, hcall⟩, ?_⟩)
        rw [List.isEmpty_iff] at hempty
        simp [withVotes, hempty]
      · exact System.once_of_run hrun ⟨hcall, rfl⟩
    | selectVotes q page =>
      cases h
      refine System.once_of_run hrun (System.Once.imp hi ?_)
      rintro bs x - - ⟨hselect, rfl⟩
      exact ⟨hselect, Or.inl ⟨_, hcall⟩, rfl⟩
  all_goals
    cases h
    try trivial

/-- The run so far, and what the locals of its requests go back to. -/
structure Answers (sql : Sql F) (c₀ : Config F) (as : List (Act Input Env)) (c : Config F) :
    Prop where
  run : (system sql).run c₀ as = some c
  calls : ∀ i, (c.calls i).Stands sql c₀ i as

theorem Answers.next {a : Act Input Env} (h : Answers sql c₀ as c)
    (hn : (system sql).next c a = some d) : Answers sql c₀ (as ++ [a]) d := by
  refine ⟨System.run_append_eq_some.mpr ⟨c, h.run, by simp [System.run_cons, hn]⟩, fun j => ?_⟩
  cases a with
  | env b =>
    obtain ⟨w, -, rfl⟩ := System.next_env_eq_some.mp hn
    exact (h.calls j).append _
  | call i a =>
    obtain ⟨w, l, es, he, rfl⟩ := System.next_call_eq_some.mp hn
    by_cases hj : j = i
    · subst hj
      simpa using (stands_of_exec h.run (h.calls j) he).append [.call j a]
    · simpa [Function.update_of_ne hj] using (h.calls j).append [.call i a]

theorem answers_of_run (h0 : c₀.Initial) (h : (system sql).run c₀ as = some c) :
    Answers sql c₀ as c := by
  refine System.run_history (I := Answers sql c₀) (fun _ _ _ _ hx hn => hx.next hn) ?_ h
  exact ⟨rfl, fun i => by rw [h0.calls i]; trivial⟩

end Main

/-- However the requests of any users interleave, the tags that are shown are those with a positive
vote among the last votes of the users, and each is shown with these votes: every user counts once,
with the last score, unless the vote was taken back. The sums are of the moment of the first query,
the single votes of that of the second one, which is left out where the page is empty. -/
theorem tags_tally {F : Type} (sql : Sql F) (c₀ c : Config F) (as : List (Act Input Env))
    (h0 : c₀.Initial) (h : (system sql).run c₀ as = some c) (i : ℕ) (q : TagQuery)
    (r : CursorResponse (TagAggregate F)) (hi : c.calls i = .shown q r) :
    (system sql).Once c₀ (fun bs y => (system sql).Once c₀ (fun _ x =>
      x.calls i = .select q ∧
      ((∃ page, y.calls i = .selectVotes q page) ∨ r.items = [] ∧ y.calls i = .select q) ∧
      (∃ tags, Finds (· < ·) x.shared.db.tag (fitting x.log q.entityType q.entityId) q.cursor tags ∧
        Cut TagAggregate.key tagKey q.limit tags r) ∧
      ∀ tag ∈ r.items, Tally sql x.log q tag ∧
        (tag.votes : Multiset TagAggregateVote) =
          (voters y.log q.entityType q.entityId tag.id).val.map fun userId =>
            ⟨userName y.shared userId, scoreOf y.log q.entityType q.entityId tag.id userId⟩) bs)
      as := by
  have hstands := (answers_of_run h0 h).calls i
  rw [hi] at hstands
  refine System.Once.imp hstands ?_
  rintro bs y - hy hbefore
  refine hbefore.imp ?_
  rintro cs x - hx ⟨hselect, hsecond, rfl⟩
  have htallied := tallied_of_reachable h0 ⟨cs, hx⟩
  have htallied' := tallied_of_reachable h0 ⟨bs, hy⟩
  obtain ⟨tags, hfinds, hcut⟩ := @Tallied.finds F sql x.shared x.log q htallied
  refine ⟨hselect, hsecond, ⟨tags, hfinds, hcut _⟩, ?_⟩
  intro tag htag
  obtain ⟨row, hrow, rfl⟩ := List.mem_map.mp htag
  exact ⟨htallied.tally hrow _, htallied'.loadTagVotes_eq (List.mem_map_of_mem hrow)⟩

def exactSql : Sql ℚ where
  div a b := a / b
  nameLe a b := a ≤ b

def polls : Config ℚ where
  shared :=
    { clock := 0
      db :=
        { artistTagVote := []
          releaseTagVote := []
          songTagVote := []
          tag := Table.empty.insertAll [⟨"Jazz", .Genre, "", ""⟩]
          user := Table.empty.insertAll
            [⟨"reimu", "", true, "", none, 0, 0, none, none, .obj []⟩,
              ⟨"marisa", "", true, "", none, 0, 0, none, none, .obj []⟩] }
      artist := []
      release := []
      song := [1] }
  calls _ := .idle
  log := []

/-- Two users vote at a time, one of them changes the vote, and the tags are asked for. -/
def twoVoters : List (Act Input Env) :=
  [.call 0 (.voteTag ⟨.Song, 1, 1, 1⟩ .High), .call 1 (.voteTag ⟨.Song, 1, 1, 2⟩ .Low),
    .call 0 .ok, .call 1 .ok, .call 1 .ok, .call 0 .ok, .call 1 .ok, .call 0 .ok,
    .call 2 (.voteTag ⟨.Song, 1, 1, 2⟩ .Medium), .call 2 .ok, .call 2 .ok, .call 2 .ok,
    .call 3 (.getTags ⟨.Song, 1, some 1, none, 10⟩), .call 3 .ok, .call 3 .ok]

theorem tags_tally_two : ∃ q r,
    ((system exactSql).after polls twoVoters).calls 3 = .shown q r ∧
    (system exactSql).Once polls (fun bs _ => (system exactSql).Once polls (fun _ x =>
      ∀ tag ∈ r.items, Tally exactSql x.log q tag) bs) twoVoters := by
  have hrun : ((system exactSql).run polls twoVoters).isSome := by decide +kernel
  have hshown : (((system exactSql).after polls twoVoters).calls 3 matches .shown _ _) = true := by
    decide +kernel
  cases hi : ((system exactSql).after polls twoVoters).calls 3 with
  | shown q r =>
    refine ⟨q, r, rfl, System.Once.imp (tags_tally exactSql polls _ twoVoters
      ⟨fun entityType => by cases entityType <;> rfl, fun _ => rfl, rfl⟩ (System.run_after hrun) 3 q
      r hi) ?_⟩
    intro bs y _ _ hy
    exact hy.imp fun _ _ _ _ hx tag htag => (hx.2.2.2 tag htag).1
  | _ => simp [hi] at hshown

end Thcdb.TagVotes
