import Mathlib.Data.List.Count
import Ral.Mailbox.Life

/-! # Mail is delivered once

Every accepted post leaves by one take or one withdrawal, or is pending still; and what the
owner is given is what it took, human posts joined run by run.
-/

namespace Ral.Mailbox
open Ral.Data Ral.Session Ral.Record

/-! ## Accounting for posts -/

def Control.posting (commit : ℕ) : Control → List PostId
  | .posted _ => [commit]
  | _ => []

def Control.takes : Control → List PostId
  | .taken posts => posts.toList
  | _ => []

def Control.withdraws : Control → List PostId
  | .withdrawn posts => posts.toList
  | _ => []

def postings (records : List (ℕ × Control)) : List PostId := records.flatMap fun r => r.2.posting r.1

def takings (records : List (ℕ × Control)) : List PostId := records.flatMap fun r => r.2.takes

def withdrawals (records : List (ℕ × Control)) : List PostId := records.flatMap fun r => r.2.withdraws

def Mail.pendingIds (m : Mail) : List PostId := m.pending.entries.map Prod.fst

/-- Each accepted post is accounted for once. -/
structure Accounted (records : List (ℕ × Control)) (m : Mail) : Prop where
  balance : ∀ id, (takings records).count id + (withdrawals records).count id + m.pendingIds.count id =
    (postings records).count id
  once : ∀ id, (postings records).count id ≤ 1
  named : ∀ id ∈ postings records, id ≤ m.named
  posted : ∀ e ∈ m.pending.entries, (e.1, Control.posted e.2) ∈ records

theorem count_removeOne {m m' : Mail} {taken : Bool} {id : PostId} (h : Mail.removeOne taken m id = .ok m') :
    m'.named = m.named ∧ m'.pending.entries ⊆ m.pending.entries ∧
      ∀ other, [id].count other + m'.pendingIds.count other = m.pendingIds.count other := by
  unfold Mail.removeOne at h
  split at h
  · cases h
  · next post hpost =>
      cases h
      refine ⟨rfl, List.filter_subset_self _, fun other => ?_⟩
      have hmem : id ∈ m.pendingIds := List.mem_map_of_mem (SortedMap.get_eq_some.mp hpost)
      have herase : ((m.pending.erase id).entries.map Prod.fst) = m.pendingIds.erase id := by
        unfold Mail.pendingIds
        rw [m.pending.keys_nodup.erase_eq_filter, List.filter_map, SortedMap.entries_erase]
        congr 1
        apply List.filter_congr
        intro e _
        rw [Bool.eq_iff_iff]
        simp
      show _ + ((m.pending.erase id).entries.map Prod.fst).count other = _
      rw [herase, ← List.count_append, List.singleton_append]
      exact ((List.perm_cons_erase hmem).count_eq other).symm

theorem count_remove {m m' : Mail} {taken : Bool} {posts : List PostId}
    (h : posts.foldlM (Mail.removeOne taken) m = .ok m') :
    m'.named = m.named ∧ m'.pending.entries ⊆ m.pending.entries ∧
      ∀ other, posts.count other + m'.pendingIds.count other = m.pendingIds.count other := by
  induction posts generalizing m with
  | nil =>
    cases h
    exact ⟨rfl, List.Subset.refl _, fun other => by simp⟩
  | cons id posts ih =>
    obtain ⟨middle, hone, hrest⟩ := Fallible.foldlM_cons_eq_ok.mp h
    obtain ⟨hnamed, hsub, hcount⟩ := count_removeOne hone
    obtain ⟨hnamed', hsub', hcount'⟩ := ih hrest
    refine ⟨hnamed'.trans hnamed, List.Subset.trans hsub' hsub, fun other => ?_⟩
    have h₁ := hcount other
    have h₂ := hcount' other
    have hcons : (id :: posts).count other = [id].count other + posts.count other := by
      rw [← List.count_append, List.singleton_append]
    omega

theorem step_accounted {records : List (ℕ × Control)} {m m' : Mail} {commit : ℕ} {control : Control}
    (h : Accounted records m) (hstep : m.step commit control = .ok m') :
    Accounted (records ++ [(commit, control)]) m' := by
  have hpostings : postings (records ++ [(commit, control)]) = postings records ++ control.posting commit := by
    simp [postings]
  have htakings : takings (records ++ [(commit, control)]) = takings records ++ control.takes := by
    simp [takings]
  have hwithdrawals : withdrawals (records ++ [(commit, control)]) = withdrawals records ++ control.withdraws := by
    simp [withdrawals]
  -- A record that moves no post.
  have aside : ∀ {m' : Mail}, control.posting commit = [] → control.takes = [] → control.withdraws = [] →
      m'.pending = m.pending → m.named ≤ m'.named → Accounted (records ++ [(commit, control)]) m' := by
    intro m' hp ht hw hpending hnamed
    refine ⟨fun id => ?_, fun id => ?_, fun id hid => ?_, fun e he => ?_⟩
    · have hids : m'.pendingIds = m.pendingIds := congrArg (fun p => p.entries.map Prod.fst) hpending
      rw [hpostings, htakings, hwithdrawals, hp, ht, hw, hids]
      simpa using h.balance id
    · rw [hpostings, hp]
      simpa using h.once id
    · rw [hpostings, hp, List.append_nil] at hid
      exact (h.named id hid).trans hnamed
    · rw [hpending] at he
      exact List.mem_append_left _ (h.posted e he)
  -- A record that removes posts, one way or the other.
  have leave : ∀ {posts : NonEmpty PostId} {taken : Bool}, m.remove posts taken = .ok m' →
      control.posting commit = [] → control.takes ++ control.withdraws = posts.toList →
      Accounted (records ++ [(commit, control)]) m' := by
    intro posts taken hremove hp hgone
    obtain ⟨hnamed, hsub, hcount⟩ := count_remove hremove
    refine ⟨fun id => ?_, fun id => ?_, fun id hid => ?_, fun e he => ?_⟩
    · have hbalance := h.balance id
      have hmoved := hcount id
      rw [← hgone, List.count_append] at hmoved
      rw [hpostings, htakings, hwithdrawals, hp, List.count_append, List.count_append, List.append_nil]
      omega
    · rw [hpostings, hp]
      simpa using h.once id
    · rw [hpostings, hp, List.append_nil] at hid
      rw [hnamed]
      exact h.named id hid
    · exact List.mem_append_left _ (h.posted e (hsub he))
  cases control with
  | jobOpened =>
    simp only [Mail.step] at hstep
    split at hstep
    · cases hstep
    · next hopen =>
        cases hstep
        simp only [Bool.or_eq_true, decide_eq_true_eq, not_or, not_le] at hopen
        exact aside rfl rfl rfl rfl (le_of_lt hopen.2)
  | jobSettled job stopped =>
    simp only [Mail.step] at hstep
    split at hstep
    · cases hstep
    · cases hstep
      exact aside rfl rfl rfl rfl (le_refl _)
  | posted post =>
    simp only [Mail.step] at hstep
    split at hstep
    · cases hstep
    · next hfresh =>
        cases hstep
        have hlt : m.named < commit := not_le.mp hfresh
        have hnew : (postings records).count commit = 0 := by
          rw [List.count_eq_zero]
          intro hmem
          exact absurd (h.named commit hmem) (not_le.mpr hlt)
        have hnotpending : commit ∉ m.pending.entries.map Prod.fst := by
          intro hmem
          have hpos : 0 < m.pendingIds.count commit := List.count_pos_iff.mpr hmem
          have := h.balance commit
          omega
        have hids : ∀ id, ((m.pending.insert commit post).entries.map Prod.fst).count id =
            [commit].count id + m.pendingIds.count id := by
          intro id
          have hperm := (SortedMap.perm_insertEntry (v := post) hnotpending).map Prod.fst
          rw [List.map_cons] at hperm
          have := hperm.count_eq id
          rw [← List.count_append, List.singleton_append]
          exact this
        refine ⟨fun id => ?_, fun id => ?_, fun id hid => ?_, fun e he => ?_⟩
        · have hbalance := h.balance id
          have hinsert := hids id
          rw [hpostings, htakings, hwithdrawals]
          show (takings records ++ []).count id + (withdrawals records ++ []).count id +
            ((m.pending.insert commit post).entries.map Prod.fst).count id =
              (postings records ++ [commit]).count id
          rw [hinsert, List.append_nil, List.append_nil, List.count_append]
          omega
        · have honce := h.once id
          rw [hpostings, List.count_append]
          show _ + [commit].count id ≤ 1
          by_cases hid : id = commit
          · rw [hid, hnew]
            simp
          · have hother : [commit].count id = 0 := List.count_eq_zero.mpr (by simpa using hid)
            omega
        · rw [hpostings, List.mem_append] at hid
          rcases hid with hid | hid
          · exact (h.named id hid).trans (le_of_lt hlt)
          · exact le_of_eq (List.mem_singleton.mp hid)
        · rcases SortedMap.mem_insertEntry he with rfl | he
          · exact List.mem_append_right _ (List.mem_singleton_self _)
          · exact List.mem_append_left _ (h.posted e he)
  | taken posts => exact leave hstep rfl (List.append_nil _)
  | withdrawn posts => exact leave hstep rfl rfl
  | sessionStarted _ | sessionResumed _ _ | status _ | scheduled _ _ | unscheduled _ | modelChanged _
  | windowNarrowed _ _ =>
    cases hstep
    exact aside rfl rfl rfl rfl (le_refl _)

theorem replay_accounted {records more : List (ℕ × Control)} {f f' : Folds} (h : Accounted records f.mail)
    (hreplay : f.replay more = .ok f') : Accounted (records ++ more) f'.mail := by
  induction more generalizing records f with
  | nil =>
    cases hreplay
    rw [List.append_nil]
    exact h
  | cons record more ih =>
    obtain ⟨middle, hstep, hrest⟩ := Fallible.foldlM_cons_eq_ok.mp hreplay
    have hone := ih (step_accounted h (folds_step_mail hstep)) hrest
    rwa [List.append_assoc, List.singleton_append] at hone

theorem seed_accounted (started : Started) : Accounted [] (Folds.seed started).mail :=
  ⟨fun _ => rfl, fun _ => by simp [postings], fun _ hid => (nomatch hid), fun _ he => (nomatch he)⟩

theorem Accounted.pending {records : List (ℕ × Control)} {m : Mail} (h : Accounted records m) {id : PostId}
    {post : Post} (hpost : m.post id = some post) :
    (id, Control.posted post) ∈ records ∧ id ∉ takings records := by
  have hmem := SortedMap.get_eq_some.mp hpost
  refine ⟨h.posted _ hmem, fun htaken => ?_⟩
  have hpending : 0 < m.pendingIds.count id := List.count_pos_iff.mpr (List.mem_map_of_mem hmem)
  have hcount : 0 < (takings records).count id := List.count_pos_iff.mpr htaken
  have hbalance := h.balance id
  have honce := h.once id
  omega

/-! ## What the owner is given -/

section
variable [Wording] {seed : Folds} {w : World}

omit [Wording] in
theorem transact_answered {α : Type} {x : Txn α} {answer : α → Answer} {P : Except Fault α → Shared → Prop}
    {given : Answer} (h : w.shared.poisoned = false → Run.Ends x w.shared P)
    (hP : ∀ r s', P r s' → r ≠ .error .panicked) (hgiven : (w.transact x answer).1 = .ok given) :
    ∃ a, answer a = given ∧ w.shared.poisoned = false ∧ P (.ok a) (w.transact x answer).2.shared := by
  cases hpoisoned : w.shared.poisoned with
  | true =>
    unfold World.transact at hgiven
    rw [transact_poisoned x hpoisoned] at hgiven
    cases hgiven
  | false =>
    have hends := transact_of_ends hpoisoned (h hpoisoned) hP
    obtain ⟨a, ha, hanswer⟩ := Fallible.map_eq_ok.mp hgiven
    rw [ha] at hends
    exact ⟨a, hanswer, rfl, hends⟩

omit [Wording] in
theorem own_answered {α : Type} {x : Txn α} {answer : α → Answer} {P : Except Fault α → Shared → Prop}
    {given : Answer} (h : w.shared.poisoned = false → Run.Ends x w.shared P)
    (hP : ∀ r s', P r s' → r ≠ .error .panicked) (hgiven : (w.own x answer).1 = .ok given) :
    ∃ a, answer a = given ∧ w.shared.poisoned = false ∧ P (.ok a) (w.own x answer).2.shared := by
  unfold World.own at hgiven ⊢
  split at hgiven
  · next hattends =>
      rw [if_pos hattends]
      exact transact_answered h hP hgiven
  · cases hgiven

theorem post_answered (hsound : Sound seed w.shared) {item : Queued} {ok : Bool} {id : PostId}
    (h : (w.step (.post item ok)).1 = .ok (.id id)) :
    w.shared.poisoned = false ∧ Accepted w.shared item id (w.step (.post item ok)).2.shared := by
  obtain ⟨a, ha, hpoisoned, _, haccepted⟩ := transact_answered
    (fun hpoisoned => post_accepts (hsound hpoisoned) item) (fun _ _ hp => hp.1.1) h
  cases ha
  exact ⟨hpoisoned, haccepted _ rfl⟩

theorem next_answered (hsound : Sound seed w.shared) {pending expired ok : Bool} {found : Next}
    (h : (w.step (.next pending expired ok)).1 = .ok (.next found)) :
    Given seed w.shared (.ok found) (w.step (.next pending expired ok)).2.shared := by
  obtain ⟨a, ha, _, _, hgiven⟩ := own_answered
    (fun hpoisoned => next_moved (hsound hpoisoned) pending expired ok) (fun _ _ hp => hp.1.1) h
  cases ha
  exact hgiven

theorem drain_answered (hsound : Sound seed w.shared) {ok : Bool} {given : List Drained}
    (h : (w.step (.drain ok)).1 = .ok (.drained given)) :
    (w.shared.exchangeCancelled = true ∧ given = [] ∧ (w.step (.drain ok)).2.shared = w.shared) ∨
      Drains seed w.shared given (w.step (.drain ok)).2.shared := by
  have hdrain : ∀ hpoisoned : w.shared.poisoned = false, Run.Ends (drain ok) w.shared fun r s' =>
      r ≠ .error .panicked ∧ ∀ given, r = .ok given →
        (w.shared.exchangeCancelled = true ∧ given = [] ∧ s' = w.shared) ∨ Drains seed w.shared given s' := by
    intro hpoisoned
    refine ends_drain (hsound hpoisoned) ?_ ?_ ?_
    · exact fun hcancelled => ⟨by simp, fun _ hgiven => Or.inl ⟨hcancelled, by cases hgiven; rfl, rfl⟩⟩
    · exact ⟨by simp, by simp⟩
    · exact fun given s' hdrains _ => ⟨by simp, fun _ hgiven => Or.inr (by cases hgiven; exact hdrains)⟩
  obtain ⟨a, ha, _, _, hgiven⟩ := own_answered hdrain (fun _ _ hp => hp.1) h
  cases ha
  exact hgiven _ rfl

/-- Mail is delivered exactly once, whoever posts and whatever fails. -/
theorem mail_delivered_once (b : Birth) (events : List Event) :
    (∃ folds, b.seed.replay (b.world.run events).shared.journal.records = .ok folds ∧
      ((b.world.run events).shared.poisoned = false → folds = (b.world.run events).shared.cell.folds) ∧
      ∀ id ∈ postings (b.world.run events).shared.journal.records,
        (takings (b.world.run events).shared.journal.records).count id +
          (withdrawals (b.world.run events).shared.journal.records).count id +
          (if (folds.mail.post id).isSome then 1 else 0) = 1) ∧
    ∀ m ∈ b.world.moments events,
      (∀ item ok id, m.event = .post item ok → m.answer = .ok (.id id) →
        (id, Control.posted item.posted) ∈ (b.world.run events).shared.journal.records) ∧
      (∀ pending expired ok found, m.event = .next pending expired ok → m.answer = .ok (.next found) →
        Given b.seed m.before.shared (.ok found) m.after.shared) ∧
      (∀ ok given, m.event = .drain ok → m.answer = .ok (.drained given) →
        (m.before.shared.exchangeCancelled = true ∧ given = [] ∧ m.after.shared = m.before.shared) ∨
          Drains b.seed m.before.shared given m.after.shared) := by
  constructor
  · obtain ⟨folds, hreplay⟩ := run_replays b.sound ⟨_, b.replays⟩ events
    refine ⟨folds, hreplay, ?_, ?_⟩
    · intro hpoisoned
      have h := (run_sound b.sound events hpoisoned).replay
      exact Except.ok.inj (hreplay.symm.trans h)
    · intro id hid
      have haccounted := replay_accounted (seed_accounted b.started) hreplay
      rw [List.nil_append] at haccounted
      have hbalance := haccounted.balance id
      have honce := haccounted.once id
      have hposted : 0 < (postings (b.world.run events).shared.journal.records).count id := List.count_pos_iff.mpr hid
      have hpending : folds.mail.pendingIds.count id = if (folds.mail.post id).isSome then 1 else 0 := by
        split
        · next hsome =>
            exact List.count_eq_one_of_mem folds.mail.pending.keys_nodup (SortedMap.get_isSome.mp hsome)
        · next hnone =>
            rw [List.count_eq_zero]
            exact fun hmem => hnone (SortedMap.get_isSome.mpr hmem)
      omega
  · intro m hm
    obtain ⟨earlier, event, later, rfl, rfl⟩ := World.mem_moments hm
    have hsound := run_sound b.sound earlier
    refine ⟨?_, ?_, ?_⟩
    · intro item ok id hevent hanswer
      cases hevent
      have hrest := run_records (step_effect hsound (.post item ok)).sound later
      rw [World.run_append, World.run_cons]
      apply hrest.subset
      show _ ∈ (((b.world.run earlier).step (.post item ok)).2).shared.journal.records
      rw [(post_answered hsound hanswer).2.records]
      exact List.mem_append_right _ (List.mem_singleton_self _)
    · intro pending expired ok found hevent hanswer
      cases hevent
      exact next_answered hsound hanswer
    · intro ok given hevent hanswer
      cases hevent
      exact drain_answered hsound hanswer

end

/-- Two prompts with a departure between them are one input. -/
theorem mail_delivered_once_joined : @Given plain helper.seed
    (@World.run plain helper.world [.post (.input (.human "a")) true, .gone 7, .post (.input (.human "b")) true]).shared
    (.ok (.take (.human "a\nb")))
    (@World.run plain helper.world [.post (.input (.human "a")) true, .gone 7, .post (.input (.human "b")) true,
      .next false false true]).shared := by
  have h := (@mail_delivered_once plain helper [.post (.input (.human "a")) true, .gone 7,
    .post (.input (.human "b")) true, .next false false true]).2 _
    (List.mem_cons_of_mem _ (List.mem_cons_of_mem _ (List.mem_cons_of_mem _ List.mem_cons_self)))
  exact h.2.1 false false true (.take (.human "a\nb")) rfl rfl

end Ral.Mailbox
