import Ral.Mailbox.Quiet

/-! # Taking a stretch

A take and a drain remove the posts of one stretch of the queue. What they give is that
stretch's payloads, grouped, and what they leave is the queue without them.
-/

namespace Ral.Mailbox
open Ral.Data Ral.Session Ral.Record

/-! ## A stretch of the queue -/

def postIds (items : List Item) : List PostId := postsWhere (fun _ => true) items

def Item.payload? : Item → Option Queued
  | .posted _ queued => some queued
  | .gone _ => none

def payloads (items : List Item) : List Queued := items.filterMap Item.payload?

theorem postIds_append (xs ys : List Item) : postIds (xs ++ ys) = postIds xs ++ postIds ys :=
  List.filterMap_append

@[simp] theorem postIds_posted (id : PostId) (queued : Queued) (items : List Item) :
    postIds (.posted id queued :: items) = id :: postIds items := rfl

@[simp] theorem postIds_gone (id : AgentId) (items : List Item) :
    postIds (.gone id :: items) = postIds items := rfl

/-- Nothing leaves a stretch none of whose posts was removed. -/
theorem leaves_none (mail : Mail) {mail' : Mail} {items : List Item} (posts : List PostId)
    (hmail : mail'.pending = posts.foldl SortedMap.erase mail.pending)
    (hpending : ∀ id ∈ postIds items, (mail.post id).isSome) (hapart : ∀ id ∈ postIds items, id ∉ posts) :
    items.filterMap mail'.leaves = [] ∧ items.filter mail'.keeps = items := by
  induction items with
  | nil => exact ⟨rfl, rfl⟩
  | cons item items ih =>
    cases item with
    | gone id =>
      obtain ⟨hleaves, hkeeps⟩ := ih hpending hapart
      rw [List.filterMap_cons_none rfl, List.filter_cons_of_pos rfl, hleaves, hkeeps]
      exact ⟨rfl, rfl⟩
    | posted id queued =>
      obtain ⟨hleaves, hkeeps⟩ := ih (fun other h => hpending other (List.mem_cons_of_mem _ h))
        fun other h => hapart other (List.mem_cons_of_mem _ h)
      obtain ⟨post, hpost⟩ := Option.isSome_iff_exists.mp (hpending id List.mem_cons_self)
      have hstays : mail'.post id = some post := by
        show mail'.pending.get id = _
        rw [hmail]
        exact get_foldl_erase.mpr ⟨hapart id List.mem_cons_self, hpost⟩
      have hitem : mail'.leaves (.posted id queued) = none := by
        simp [Mail.leaves, hstays]
      rw [List.filterMap_cons_none hitem, List.filter_cons_of_pos (by simp [Mail.keeps, hitem]), hleaves, hkeeps]
      exact ⟨rfl, rfl⟩

/-- All posts leave a stretch that was removed. -/
theorem leaves_all (mail : Mail) {mail' : Mail} {items : List Item} (posts : List PostId)
    (hmail : mail'.pending = posts.foldl SortedMap.erase mail.pending) (hposts : ∀ id ∈ postIds items, id ∈ posts) :
    items.filterMap mail'.leaves = payloads items ∧ items.filter mail'.keeps = items.filter isGone := by
  induction items with
  | nil => exact ⟨rfl, rfl⟩
  | cons item items ih =>
    unfold payloads at ih ⊢
    cases item with
    | gone id =>
      obtain ⟨hleaves, hkeeps⟩ := ih hposts
      rw [List.filterMap_cons_none rfl, List.filterMap_cons_none rfl, List.filter_cons_of_pos rfl,
        List.filter_cons_of_pos rfl, hleaves, hkeeps]
      exact ⟨rfl, rfl⟩
    | posted id queued =>
      obtain ⟨hleaves, hkeeps⟩ := ih fun other h => hposts other (List.mem_cons_of_mem _ h)
      have hgone : mail'.post id = none := by
        show mail'.pending.get id = none
        rw [hmail, Option.eq_none_iff_forall_ne_some]
        intro post hpost
        exact (get_foldl_erase.mp hpost).1 (hposts id List.mem_cons_self)
      have hitem : mail'.leaves (.posted id queued) = some queued := by
        simp [Mail.leaves, hgone]
      have hpayload : Item.payload? (.posted id queued) = some queued := rfl
      rw [List.filterMap_cons_some hitem, List.filterMap_cons_some hpayload,
        List.filter_cons_of_neg (by simp [Mail.keeps, hitem]), List.filter_cons_of_neg (by simp [isGone]),
        hleaves, hkeeps]
      exact ⟨rfl, rfl⟩

section
variable [Wording] {seed : Folds} {s : Shared}

theorem Shared.Replays.nodup_postIds (h : s.Replays seed) : (postIds s.cell.queue).Nodup :=
  h.nodup_postsWhere _

def Shared.took (s : Shared) (posts : NonEmpty PostId) : Shared :=
  s.written [.taken posts] { s.cell.folds with mail := s.mail.removed posts.toList true }

/-- A stretch is taken whole, and nothing else is. -/
theorem ends_taken {Q : Except Fault (List Queued) → Shared → Prop} {ok : Bool} (h : s.Replays seed)
    {before stretch after : List Item} (hqueue : s.cell.queue = before ++ stretch ++ after)
    {posts : NonEmpty PostId} (hposts : posts.toList = postIds stretch)
    (fails : Q (.error .unavailable) s.latched)
    (takes : Advances seed s (s.took posts) [.taken posts] → Steady s (s.took posts) [.taken posts] →
      (s.took posts).cell.queue = before ++ stretch.filter isGone ++ after →
      Q (.ok (payloads stretch)) (s.took posts)) :
    Run.Ends (commit ⟨.taken posts, []⟩ ok) s Q := by
  have hnodup := h.nodup_postIds
  rw [hqueue, postIds_append, postIds_append, List.append_assoc, List.nodup_append, List.nodup_append] at hnodup
  obtain ⟨_, ⟨hnodupS, _, hapartS⟩, hapart⟩ := hnodup
  have hpending : ∀ id ∈ postIds s.cell.queue, (s.mail.post id).isSome := fun id hid => h.pending_postsWhere hid
  rw [hqueue, postIds_append, postIds_append] at hpending
  have hline := Folds.stepLine_one (@Folds.step_taken s.cell.folds posts (hposts ▸ hnodupS)
    (fun id hid => hpending id (List.mem_append_left _ (List.mem_append_right _ (hposts ▸ hid))))
    (s.journal.commits + 1))
  have hbefore := @leaves_none s.mail (s.mail.removed posts.toList true) before posts.toList rfl
    (fun id hid => hpending id (List.mem_append_left _ (List.mem_append_left _ hid)))
    (fun id hid hin => hapart id hid id (List.mem_append_left _ (hposts ▸ hin)) rfl)
  have hafter := @leaves_none s.mail (s.mail.removed posts.toList true) after posts.toList rfl
    (fun id hid => hpending id (List.mem_append_right _ hid))
    (fun id hid hin => hapartS id (hposts ▸ hin) id hid rfl)
  have hstretch := @leaves_all s.mail (s.mail.removed posts.toList true) stretch posts.toList rfl (fun id hid => hposts ▸ hid)
  refine ends_commit (by simp [NonEmpty.toList, isPosted]) hline fails ?_
  intro hfailed
  have hleaving : s.leaving (s.mail.removed posts.toList true) = payloads stretch := by
    unfold Shared.leaving
    rw [hqueue, List.filterMap_append, List.filterMap_append, hbefore.1, hafter.1, hstretch.1]
    simp
  have hleft : (s.took posts).cell.queue = before ++ stretch.filter isGone ++ after := by
    show s.cell.queue.filter (s.mail.removed posts.toList true).keeps = _
    rw [hqueue, List.filter_append, List.filter_append, hbefore.2, hafter.2, hstretch.2]
  have hadv : Advances seed s (s.took posts) [.taken posts] :=
    h.advances_written posts.toList hfailed hline rfl (le_refl _) h.named_le_succ (.taken _ _)
  have hsteady : Steady s (s.took posts) [.taken posts] := ⟨rfl, rfl, by simp [Control.isJob]⟩
  have hQ := takes hadv hsteady hleft
  rw [← hleaving] at hQ
  exact hQ

/-! ## One input -/

def Item.humanText? : Item → Option String
  | .posted _ (.input (.human text)) => some text
  | _ => none

def texts (items : List Item) : List String := items.filterMap Item.humanText?

/-- A stretch that is given as one, and what it gives: another post alone, or a run of
human posts, with the departures met inside, up to the next other post. -/
inductive OneInput : List Item → List Item → Queued → Prop
  | other (id : PostId) {queued : Queued} (after : List Item) :
      queued.isHuman = false → OneInput [.posted id queued] after queued
  | run (id : PostId) (text : String) {items after : List Item} :
      (∀ item ∈ items, item.part.isPost = false) → (∀ item ∈ after.head?, item.part.isPost = true) →
      OneInput (.posted id (.input (.human text)) :: items) after (.input (.human (joined (text :: texts items))))

omit [Wording] in
theorem human_stretch {items : List Item} (h : ∀ item ∈ items, item.part.isPost = false) :
    (items.map Item.part).filterMap Part.human? = postIds items ∧
      (payloads items).map takenPart = (texts items).map .human := by
  induction items with
  | nil => exact ⟨rfl, rfl⟩
  | cons item items ih =>
    obtain ⟨hids, htexts⟩ := ih fun other hother => h other (List.mem_cons_of_mem _ hother)
    have hitem := h item List.mem_cons_self
    unfold payloads texts at htexts ⊢
    match item with
    | .gone id =>
      rw [List.map_cons, List.filterMap_cons_none rfl, List.filterMap_cons_none rfl,
        List.filterMap_cons_none rfl]
      exact ⟨hids, htexts⟩
    | .posted id (.input (.human text)) =>
      have hpart : Part.human? (Item.part (.posted id (.input (.human text)))) = some id := rfl
      have hpayload : Item.payload? (.posted id (.input (.human text))) = some (.input (.human text)) := rfl
      have htext : Item.humanText? (.posted id (.input (.human text))) = some text := rfl
      rw [List.map_cons, List.filterMap_cons_some hpart, List.filterMap_cons_some hpayload,
        List.filterMap_cons_some htext, List.map_cons, List.map_cons, hids, htexts]
      exact ⟨rfl, rfl⟩
    | .posted id (.input (.task _)) => cases hitem
    | .posted id (.input (.message _)) => cases hitem
    | .posted id (.input (.child ..)) => cases hitem
    | .posted id (.input (.wakeup ..)) => cases hitem
    | .posted id (.input (.surface ..)) => cases hitem
    | .posted id (.command _) => cases hitem

omit [Wording] in
theorem takenPart_of_other {queued : Queued} (h : queued.isHuman = false) : takenPart queued = .post queued := by
  cases queued with
  | command c => rfl
  | input input =>
    cases input with
    | human text => cases h
    | _ => rfl

omit [Wording] in
theorem inRun_humans {T : Type} (texts : List String) :
    (inRun (texts.map .human : List (Part T String))).filterMap Part.human? = texts := by
  induction texts with
  | nil => rfl
  | cons text texts ih =>
    have hcons : inRun ((text :: texts).map .human : List (Part T String)) =
        .human text :: inRun (texts.map .human) := rfl
    have htext : Part.human? (.human text : Part T String) = some text := rfl
    rw [hcons, List.filterMap_cons_some htext, ih]

/-- What a take at an item gives. -/
theorem ends_deliver {Q : Except Fault Queued → Shared → Prop} {ok : Bool} (h : s.Replays seed)
    {before stretch after : List Item} (hqueue : s.cell.queue = before ++ stretch ++ after) {given : Queued}
    (hone : OneInput stretch after given) {posts : NonEmpty PostId} (hposts : posts.toList = postIds stretch)
    (fails : Q (.error .unavailable) s.latched)
    (takes : Advances seed s (s.took posts) [.taken posts] → Steady s (s.took posts) [.taken posts] →
      (s.took posts).cell.queue = before ++ stretch.filter isGone ++ after → Q (.ok given) (s.took posts)) :
    Run.Ends (take.deliver ok posts) s Q := by
  refine Run.ends_bind (ends_taken h hqueue hposts fails ?_)
  intro hadv hsteady hleft
  rw [Run.after_ok]
  have hQ := takes hadv hsteady hleft
  cases hone with
  | other id _ hother =>
    have htaken : (payloads [Item.posted id given]).map takenPart = [.post given] := by
      rw [← takenPart_of_other hother]
      rfl
    rw [htaken]
    exact Run.ends_pure hQ
  | run id text hrun _ =>
    have htaken : (payloads (.posted id (.input (.human text)) :: _)).map takenPart =
        .human text :: (texts _).map .human := congrArg (Part.human text :: ·) (human_stretch hrun).2
    rw [htaken, runs_human, inRun_humans]
    exact Run.ends_pure hQ

/-- A take at a post gives the input that starts there. -/
theorem ends_take {Q : Except Fault Queued → Shared → Prop} {ok : Bool} (h : s.Replays seed)
    {before rest : List Item} {id : PostId} {queued : Queued}
    (hqueue : s.cell.queue = before ++ .posted id queued :: rest) (fails : Q (.error .unavailable) s.latched)
    (takes : ∀ (stretch after : List Item) (given : Queued) (posts : NonEmpty PostId),
      s.cell.queue = before ++ stretch ++ after → posts.toList = postIds stretch → OneInput stretch after given →
      Advances seed s (s.took posts) [.taken posts] → Steady s (s.took posts) [.taken posts] →
      (s.took posts).cell.queue = before ++ stretch.filter isGone ++ after → Q (.ok given) (s.took posts)) :
    Run.Ends (take before.length ok) s Q := by
  have hdrop : s.cell.queue.drop before.length = .posted id queued :: rest := by
    rw [hqueue, List.drop_left]
  refine Run.ends_bind (Run.ends_get ?_)
  rw [Run.after_ok, hdrop]
  cases hhuman : queued.isHuman with
  | false =>
    have hpart : Item.part (.posted id queued) = .post (.posted id queued) := by
      simp [Item.part, hhuman]
    rw [List.map_cons, hpart, runs_post]
    have hsplit : s.cell.queue = before ++ [.posted id queued] ++ rest := by
      rw [hqueue, List.append_assoc, List.singleton_append]
    exact ends_deliver h hsplit (.other id rest hhuman) rfl fails
      (takes _ _ _ _ hsplit rfl (.other id rest hhuman))
  | true =>
    obtain ⟨text, rfl⟩ : ∃ text, queued = .input (.human text) := by
      cases queued with
      | command c => cases hhuman
      | input input =>
        cases input with
        | human text => exact ⟨text, rfl⟩
        | _ => cases hhuman
    have hrun : inRun (rest.map Item.part) = (rest.takeWhile fun item => !item.part.isPost).map Item.part :=
      List.takeWhile_map
    have hinside : ∀ item ∈ rest.takeWhile (fun item => !item.part.isPost), item.part.isPost = false := by
      intro item hitem
      simpa using List.all_eq_true.mp List.all_takeWhile item hitem
    have hafter : ∀ item ∈ (rest.dropWhile fun item => !item.part.isPost).head?, item.part.isPost = true := by
      intro item hitem
      have := List.head?_dropWhile_not (fun item : Item => !item.part.isPost) rest
      rw [hitem] at this
      simpa using this
    have hsplit : s.cell.queue = before ++
        (.posted id (.input (.human text)) :: rest.takeWhile fun item => !item.part.isPost) ++
        rest.dropWhile fun item => !item.part.isPost := by
      rw [hqueue, List.append_assoc, List.cons_append, List.takeWhile_append_dropWhile]
    have hone := OneInput.run id text hinside hafter
    have hpart : Item.part (.posted id (.input (.human text))) = .human id := rfl
    rw [List.map_cons, hpart, runs_human, hrun, (human_stretch hinside).1]
    exact ends_deliver h hsplit hone rfl fails (takes _ _ _ _ hsplit rfl hone)

/-! ## A drain -/

def Item.slot : Item → Queued ⊕ AgentId
  | .posted _ queued => .inl queued
  | .gone id => .inr id

omit [Wording] in
theorem fillSlots_payloads (items : List Item) : fillSlots items (payloads items) = some (items.map Item.slot) := by
  induction items with
  | nil => rfl
  | cons item items ih =>
    unfold payloads at ih ⊢
    cases item with
    | gone id =>
      rw [List.filterMap_cons_none rfl, fillSlots, ih]
      rfl
    | posted id queued =>
      have hpayload : Item.payload? (.posted id queued) = some queued := rfl
      rw [List.filterMap_cons_some hpayload, fillSlots, ih]
      rfl

omit [Wording] in
/-- Up to a rewrite every slot has its part. -/
theorem drained_parts {items : List Item} (h : ∀ item ∈ items, isRewrite item = false) :
    ∃ parts, (items.map Item.slot).mapM drainedPart = some parts := by
  induction items with
  | nil => exact ⟨[], rfl⟩
  | cons item items ih =>
    obtain ⟨parts, hparts⟩ := ih fun other hother => h other (List.mem_cons_of_mem _ hother)
    have hitem := h item List.mem_cons_self
    obtain ⟨part, hpart⟩ : ∃ part, drainedPart item.slot = some part := by
      match item with
      | .gone id => exact ⟨_, rfl⟩
      | .posted _ (.command (.read _)) => exact ⟨_, rfl⟩
      | .posted _ (.command (.model _)) => exact ⟨_, rfl⟩
      | .posted _ (.command (.rewrite _)) => cases hitem
      | .posted _ (.input (.human _)) => exact ⟨_, rfl⟩
      | .posted _ (.input (.task _)) => exact ⟨_, rfl⟩
      | .posted _ (.input (.message _)) => exact ⟨_, rfl⟩
      | .posted _ (.input (.child ..)) => exact ⟨_, rfl⟩
      | .posted _ (.input (.wakeup ..)) => exact ⟨_, rfl⟩
      | .posted _ (.input (.surface ..)) => exact ⟨_, rfl⟩
    refine ⟨part :: parts, ?_⟩
    rw [List.map_cons, List.mapM_cons, hpart, hparts]
    rfl

omit [Wording] in
theorem filter_isGone_of_no_posts {items : List Item} (h : postIds items = []) : items.filter isGone = items := by
  rw [List.filter_eq_self]
  intro item hitem
  cases item with
  | gone id => rfl
  | posted id queued =>
    have hid : id ∈ postIds items := mem_postsWhere.mpr ⟨queued, hitem, rfl⟩
    rw [h] at hid
    cases hid

/-- What a drain gives and leaves: all up to a rewrite, in its groups. -/
structure Drains (seed : Folds) (s : Shared) (given : List Drained) (s' : Shared) : Prop where
  queue : s.cell.queue = stretch s.cell.queue ++ s'.cell.queue
  held : ∀ item ∈ s'.cell.queue.head?, isRewrite item = true
  spared : ∀ item ∈ stretch s.cell.queue, isRewrite item = false
  line : Advances seed s s' ((collect (postIds (stretch s.cell.queue))).toList.map .taken)
  given : ∃ parts groups, ((stretch s.cell.queue).map Item.slot).mapM drainedPart = some parts ∧
    Grouped parts groups ∧ given = groups.map drainedGroup

omit [Wording] in
theorem stretch_spared (queue : List Item) : ∀ item ∈ stretch queue, isRewrite item = false := by
  intro item hitem
  simpa using List.all_eq_true.mp List.all_takeWhile item hitem

/-- What lies behind a drained stretch. -/
def rest (queue : List Item) : List Item := queue.dropWhile fun item => !isRewrite item

omit [Wording] in
theorem rest_held (queue : List Item) : ∀ item ∈ (rest queue).head?, isRewrite item = true := by
  intro item hitem
  have := List.head?_dropWhile_not (fun item : Item => !isRewrite item) queue
  unfold rest at hitem
  rw [hitem] at this
  simpa using this

theorem recorded_gones {items : List Item} (h : ∀ item ∈ items, isGone item = true) : recorded items = [] := by
  unfold recorded
  rw [List.filterMap_eq_nil_iff]
  intro item hitem
  cases item with
  | gone id => rfl
  | posted id queued => cases h _ hitem

theorem ends_drainSlots {Q : Except Fault (List Drained) → Shared → Prop} {s' : Shared} {taken : List Queued}
    (htaken : taken = payloads (stretch s.cell.queue))
    (hqueue : s'.cell.queue = (stretch s.cell.queue).filter isGone ++ rest s.cell.queue)
    (hadv : Advances seed s s' ((collect (postIds (stretch s.cell.queue))).toList.map .taken))
    (drains : ∀ given, Drains seed s given (s'.setQueue (rest s.cell.queue)) →
      Q (.ok given) (s'.setQueue (rest s.cell.queue))) :
    Run.Ends (drainSlots (stretch s.cell.queue) taken) s' Q := by
  have hgones : ∀ item ∈ (stretch s.cell.queue).filter isGone, isGone item = true :=
    fun item hitem => (List.mem_filter.mp hitem).2
  have hall : (s'.cell.queue.take ((stretch s.cell.queue).filter isGone).length).all isGone = true := by
    rw [hqueue, List.take_left, List.all_eq_true]
    exact hgones
  have hdrop : s'.cell.queue.drop ((stretch s.cell.queue).filter isGone).length = rest s.cell.queue := by
    rw [hqueue, List.drop_left]
  have hrecorded : recorded (rest s.cell.queue) = recorded s'.cell.queue := by
    have hnone := recorded_gones hgones
    unfold recorded at hnone ⊢
    rw [hqueue, List.filterMap_append, hnone, List.nil_append]
  obtain ⟨parts, hparts⟩ := drained_parts (stretch_spared s.cell.queue)
  refine Run.ends_bind (Run.ends_get ?_)
  rw [Run.after_ok, if_pos hall]
  refine Run.ends_bind (Run.ends_modify ?_)
  rw [Run.after_ok, htaken, fillSlots_payloads, Option.bind_some, hparts, hdrop]
  apply Run.ends_pure
  apply drains
  exact {
    queue := List.takeWhile_append_dropWhile.symm
    held := rest_held _
    spared := stretch_spared _
    line := { hadv with replays := hadv.replays.setQueue hrecorded }
    given := ⟨parts, runs parts, hparts, grouped_runs parts, rfl⟩ }

theorem ends_drain {Q : Except Fault (List Drained) → Shared → Prop} {ok : Bool} (h : s.Replays seed)
    (stopped : s.exchangeCancelled = true → Q (.ok []) s) (fails : Q (.error .unavailable) s.latched)
    (drains : ∀ given s', Drains seed s given s' →
      Steady s s' ((collect (postIds (stretch s.cell.queue))).toList.map .taken) → Q (.ok given) s') :
    Run.Ends (drain ok) s Q := by
  refine Run.ends_bind (Run.ends_get ?_)
  rw [Run.after_ok]
  split
  · next hstop => exact Run.ends_pure (stopped hstop)
  · dsimp only
    split
    · next posts hposts =>
        have hlist : posts.toList = postIds (stretch s.cell.queue) := toList_of_collect hposts
        have hsplit : s.cell.queue = [] ++ stretch s.cell.queue ++ rest s.cell.queue :=
          List.takeWhile_append_dropWhile.symm
        refine Run.ends_bind (ends_taken h hsplit hlist fails ?_)
        intro hadv hsteady hleft
        have hline : (collect (postIds (stretch s.cell.queue))).toList.map Control.taken = [.taken posts] := by
          unfold postIds
          rw [hposts]
          rfl
        rw [← hline] at hadv hsteady
        exact ends_drainSlots rfl hleft hadv fun given hdrains => drains given _ hdrains { hsteady with }
    · next hposts =>
        have hnone : postIds (stretch s.cell.queue) = [] := eq_nil_of_collect hposts
        have hline : (collect (postIds (stretch s.cell.queue))).toList.map Control.taken = [] := by
          rw [hnone]
          rfl
        have hgones := filter_isGone_of_no_posts hnone
        have hsplit : s.cell.queue = (stretch s.cell.queue).filter isGone ++ rest s.cell.queue := by
          rw [hgones]
          exact List.takeWhile_append_dropWhile.symm
        have hempty : [] = payloads (stretch s.cell.queue) := by
          unfold payloads
          rw [← hgones, eq_comm, List.filterMap_eq_nil_iff]
          intro item hitem
          cases item with
          | gone id => rfl
          | posted id queued => cases (List.mem_filter.mp hitem).2
        have hadv := h.advances_refl
        rw [← hline] at hadv
        refine ends_drainSlots hempty hsplit hadv fun given hdrains => drains given _ hdrains ⟨rfl, rfl, ?_⟩
        rw [hline]
        simp

end

end Ral.Mailbox
