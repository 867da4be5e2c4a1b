import Mathlib.Data.List.Induction
import Ral.Core.Fallible
import Ral.View.Blocks

/-! # The window and the whole view

Two folds of one log, one under a window. What the window holds is the end of the whole view,
so long as no rewind cuts from a block it has dropped.
-/

namespace Ral.View
open Ral.Record Ral.Mailbox
open Ral.Session (Transcript)

variable [Payloads]

/-! ## What a record does to the blocks -/

inductive Act
  | push (kind : BlockKind)
  | patch (call : BlockId) (verdict : Verdict)
  | rewind (anchor : ℕ)
  | clear
  | keep

def Act.ofTranscript : Transcript → Act
  | .userPrompt turn text voice =>
    if voice ≠ .harness then .push (.prompt text (some turn)) else .keep
  | .steering text voice => if voice ≠ .harness then .push (.prompt text none) else .keep
  | .evicted eviction =>
    match eviction.by with
    | .harness => .push (.evicted eviction)
    | .model => .keep
  | .rewound anchor => .rewind anchor
  | .cleared => .clear
  | _ => .keep

def Act.ofDisplay : Display → Act
  | .thinking text => .push (.thinking text)
  | .answer text => .push (.answer text)
  | .toolCall tool cmd summary => .push (.toolCall tool cmd summary none)
  | .harnessCall verb subject payload failed => .push (.harnessCall verb subject payload failed)
  | .verdict call verdict => .patch call verdict
  | .subagentDone name outcome elapsedMs => .push (.subagentDone name outcome elapsedMs)
  | .observation value => .push (.observation value)
  | .change change => .push (.change change)
  | .card card => .push (.card card)
  | .done id title elapsedMs outcome => .push (.done id title elapsedMs outcome)
  | .context rows => .push (.context rows)

def Act.ofForensic : Forensic → Act
  | .cancelled => .push .cancelled
  | .error text => .push (.error text)
  | .nudge cause spent => .push (.nudge cause spent)
  | .providerError error =>
    match Payloads.stallCause error with
    | some cause => .push (.stalled cause)
    | none => .push (.providerError error)
  | .engineSevered cause =>
    .push (.systemNote
      s!"the ral engine was lost ({Payloads.code cause}): {Payloads.shown cause}")
  | .teardownFailed failure => .push (.error failure)
  | .systemNote text => .push (.systemNote text)
  | .harnessResult text => .push (.harnessResult text)
  | .turnStarted turn => .push (.turn turn)
  | _ => .keep

def Act.of : Record → Act
  | .transcript p => .ofTranscript p
  | .control _ => .keep
  | .display d => .ofDisplay d
  | .forensic f => .ofForensic f

def pushed (window : Option ℕ) (seq : Seq) (kind : BlockKind) (blocks : List Block) : List Block :=
  match blocks.getLast?.bind fun tail => (tail.kind.joined kind).map (Block.mk tail.seq) with
  | some tail => blocks.dropLast ++ [tail]
  | none => Blocks.evict window (blocks ++ [⟨seq, kind⟩])

def before (anchor : ℕ) (blocks : List Block) : List Block :=
  blocks.takeWhile fun b => !b.isTurnFrom anchor

def Act.run (window : Option ℕ) (seq : Seq) : Act → List Block → List Block
  | .push kind, blocks => pushed window seq kind blocks
  | .patch call verdict, blocks => (View.patch call verdict blocks).getD blocks
  | .rewind anchor, blocks => pushed window seq (.rewound anchor) (before anchor blocks)
  | .clear, _ => pushed window seq .cleared []
  | .keep, blocks => blocks

def modelAfter (record : Record) (model : Option Model) : Except Misfit (Option Model) :=
  match record, model with
  | .control (.sessionStarted started), _ => .ok (some (.new started.selected))
  | .control control, some model => (model.step control).map some
  | _, model => .ok model

omit [Payloads] in
theorem take_findIdx {α : Type} (p : α → Bool) (l : List α) :
    l.take ((l.findIdx? p).getD l.length) = l.takeWhile fun x => !p x := by
  induction l with
  | nil => rfl
  | cons x l ih =>
    rw [List.findIdx?_cons]
    cases hp : p x with
    | true => simp [hp]
    | false =>
      rw [List.takeWhile_cons_of_pos (by simp [hp]), ← ih]
      cases l.findIdx? p <;> simp

namespace Blocks

theorem push_blocks (window : Option ℕ) (seq : Seq) (kind : BlockKind) (memo : Blocks) :
    (memo.push window seq kind).2.blocks = pushed window seq kind memo.blocks ∧
      (memo.push window seq kind).2.model = memo.model := by
  unfold push pushed
  cases memo.blocks.getLast?.bind fun tail =>
    (tail.kind.joined kind).map (Block.mk tail.seq) with
  | none => exact ⟨rfl, rfl⟩
  | some tail => exact ⟨rfl, rfl⟩

/-- A record's step is its act on the blocks, beside the model in force. -/
structure Steps (window : Option ℕ) (seq : Seq) (act : Act) (memo memo' : Blocks) : Prop where
  blocks : memo'.blocks = act.run window seq memo.blocks
  model : memo'.model = memo.model

theorem steps_push (window : Option ℕ) (seq : Seq) (kind : BlockKind) (memo : Blocks) :
    Steps window seq (.push kind) memo (memo.push window seq kind).2 :=
  ⟨(push_blocks window seq kind memo).1, (push_blocks window seq kind memo).2⟩

theorem steps_keep (window : Option ℕ) (seq : Seq) (memo : Blocks) :
    Steps window seq .keep memo memo := ⟨rfl, rfl⟩

theorem steps_transcript (window : Option ℕ) (seq : Seq) (p : Transcript) (memo : Blocks) :
    Steps window seq (.ofTranscript p) memo (memo.stepTranscript window seq p).2 := by
  cases p with
  | userPrompt turn text voice =>
    simp only [stepTranscript, Act.ofTranscript]
    split
    · exact steps_push window seq _ memo
    · exact steps_keep window seq memo
  | steering text voice =>
    simp only [stepTranscript, Act.ofTranscript]
    split
    · exact steps_push window seq _ memo
    · exact steps_keep window seq memo
  | evicted eviction =>
    simp only [stepTranscript, Act.ofTranscript]
    cases eviction.by with
    | harness => exact steps_push window seq _ memo
    | model => exact steps_keep window seq memo
  | rewound anchor =>
    have hkept := push_blocks window seq (.rewound anchor)
      { memo with blocks := memo.blocks.take ((memo.rewindAt anchor).getD memo.blocks.length) }
    constructor
    · refine hkept.1.trans ?_
      simp only [rewindAt, take_findIdx]
      rfl
    · exact hkept.2
  | cleared =>
    have hcleared := push_blocks window seq .cleared
      { memo with blocks := [], origin := none, lastInput := 0 }
    exact ⟨hcleared.1, hcleared.2⟩
  | _ => exact steps_keep window seq memo

theorem steps_display (window : Option ℕ) (seq : Seq) (d : Display) (memo : Blocks) :
    Steps window seq (.ofDisplay d) memo (memo.stepDisplay window seq d).2 := by
  cases d with
  | verdict call verdict =>
    simp only [stepDisplay, attachVerdict, Act.ofDisplay]
    cases hp : patch call verdict memo.blocks with
    | none => exact ⟨by simp [Act.run, hp], rfl⟩
    | some blocks => exact ⟨by simp [Act.run, hp], rfl⟩
  | _ => exact steps_push window seq _ memo

theorem steps_forensic (window : Option ℕ) (seq : Seq) (f : Forensic) (memo : Blocks) :
    Steps window seq (.ofForensic f) memo (memo.stepForensic window seq f).2 := by
  cases f with
  | usageDelta usage => exact ⟨rfl, rfl⟩
  | providerError error =>
    simp only [stepForensic, Act.ofForensic]
    cases Payloads.stallCause error with
    | none => exact steps_push window seq _ memo
    | some cause => exact steps_push window seq _ memo
  | sessionEnded => exact steps_keep window seq memo
  | sessionClosed => exact steps_keep window seq memo
  | retried error => exact steps_keep window seq memo
  | pin key => exact steps_keep window seq memo
  | unpin key => exact steps_keep window seq memo
  | reap title cause => exact steps_keep window seq memo
  | prune names idleCalls => exact steps_keep window seq memo
  | _ => exact steps_push window seq _ memo

/-- Whether a record is admitted is the model's to say, and no block's. -/
theorem stepRecord_spec (window : Option ℕ) (seq : Seq) (record : Record) (memo : Blocks) :
    match modelAfter record memo.model with
    | .error misfit => memo.stepRecord window seq record = .error misfit
    | .ok model => ∃ delta memo', memo.stepRecord window seq record = .ok (delta, memo') ∧
        memo'.blocks = (Act.of record).run window seq memo.blocks ∧ memo'.model = model := by
  cases record with
  | transcript p =>
    have hsteps := steps_transcript window seq p memo
    exact ⟨_, _, rfl, hsteps.blocks, hsteps.model⟩
  | display d =>
    have hsteps := steps_display window seq d memo
    exact ⟨_, _, rfl, hsteps.blocks, hsteps.model⟩
  | forensic f =>
    have hsteps := steps_forensic window seq f memo
    exact ⟨_, _, rfl, hsteps.blocks, hsteps.model⟩
  | control control =>
    obtain ⟨blocks, usage, lastInput, model, origin, seen⟩ := memo
    cases model with
    | none => cases control <;> exact ⟨_, _, rfl, rfl, rfl⟩
    | some model =>
      cases control with
      | sessionStarted started => exact ⟨_, _, rfl, rfl, rfl⟩
      | windowNarrowed name limit =>
        simp only [modelAfter, stepRecord, stepControl]
        cases model.step (.windowNarrowed name limit) with
        | error misfit => rfl
        | ok next => exact ⟨_, _, rfl, rfl, rfl⟩
      | _ => exact ⟨_, _, rfl, rfl, rfl⟩

end Blocks

/-! ## Blocks under a window -/

omit [Payloads] in
theorem suffix_getLast? {α : Type} {kept full : List α} (h : kept <:+ full) (hne : kept ≠ []) :
    full.getLast? = kept.getLast? := by
  obtain ⟨front, rfl⟩ := h
  exact List.getLast?_append_of_ne_nil front hne

omit [Payloads] in
theorem suffix_dropLast_concat {α : Type} {kept full : List α} (h : kept <:+ full)
    (hne : kept ≠ []) (x : α) : kept.dropLast ++ [x] <:+ full.dropLast ++ [x] := by
  obtain ⟨front, rfl⟩ := h
  rw [List.dropLast_append_of_ne_nil hne, List.append_assoc]
  exact List.suffix_append _ _

theorem evict_suffix (window : Option ℕ) (blocks : List Block) :
    Blocks.evict window blocks <:+ blocks := by
  induction blocks with
  | nil => exact List.suffix_rfl
  | cons b rest ih =>
    unfold Blocks.evict
    split
    · exact ih.trans (List.suffix_cons b rest)
    · exact List.suffix_rfl

theorem evict_none (blocks : List Block) : Blocks.evict none blocks = blocks := by
  cases blocks <;> rfl

theorem evict_length (window : ℕ) (blocks : List Block) :
    (Blocks.evict (some window) blocks).length = min blocks.length window := by
  induction blocks with
  | nil => simp [Blocks.evict]
  | cons b rest ih =>
    unfold Blocks.evict
    by_cases hover : window < (b :: rest).length
    · rw [if_pos (by simpa using hover), ih]
      rw [List.length_cons] at hover ⊢
      omega
    · rw [if_neg (by simpa using hover)]
      omega

/-- What a view under a window holds beside the whole one. -/
structure Tail (window : ℕ) (full kept : List Block) : Prop where
  suffix : kept <:+ full
  filled : kept = [] → full = [] ∨ window = 0
  within : kept.length ≤ window

theorem tail_evict {window : ℕ} {full kept : List Block} (h : kept <:+ full) (seq : Seq)
    (kind : BlockKind) : Tail window (full ++ [⟨seq, kind⟩])
      (Blocks.evict (some window) (kept ++ [⟨seq, kind⟩])) := by
  have hlength := evict_length window (kept ++ [⟨seq, kind⟩])
  rw [List.length_append, List.length_singleton] at hlength
  constructor
  · obtain ⟨front, rfl⟩ := h
    rw [List.append_assoc]
    exact (evict_suffix _ _).trans (List.suffix_append _ _)
  · intro hnil
    rw [hnil, List.length_nil] at hlength
    right
    omega
  · omega

theorem tail_pushed {window : ℕ} {full kept : List Block} (h : Tail window full kept) (seq : Seq)
    (kind : BlockKind) :
    Tail window (pushed none seq kind full) (pushed (some window) seq kind kept) := by
  by_cases hnil : kept = []
  · subst hnil
    rcases h.filled rfl with rfl | rfl
    · exact tail_evict (@List.nil_suffix _ []) seq kind
    · exact ⟨List.nil_suffix, fun _ => Or.inr rfl, Nat.le_refl 0⟩
  · unfold pushed
    rw [suffix_getLast? h.suffix hnil]
    cases kept.getLast?.bind fun tail => (tail.kind.joined kind).map (Block.mk tail.seq) with
    | none =>
      dsimp only
      rw [evict_none]
      exact tail_evict h.suffix seq kind
    | some tail =>
      have hwithin := h.within
      have hpos := List.length_pos_of_ne_nil hnil
      refine ⟨suffix_dropLast_concat h.suffix hnil tail, by simp, ?_⟩
      rw [List.length_append, List.length_dropLast, List.length_singleton]
      omega

/-! ## Verdicts -/

theorem patch_eq_none {call : BlockId} {verdict : Verdict} {blocks : List Block}
    (h : ∀ b ∈ blocks, b.seq ≠ call) : patch call verdict blocks = none := by
  induction blocks with
  | nil => rfl
  | cons b rest ih =>
    unfold patch
    rw [if_neg (h b List.mem_cons_self), ih fun x hx => h x (List.mem_cons_of_mem b hx)]
    rfl

theorem patch_append_of_absent {call : BlockId} {verdict : Verdict} {front : List Block}
    (h : ∀ b ∈ front, b.seq ≠ call) (kept : List Block) :
    patch call verdict (front ++ kept) = (patch call verdict kept).map (front ++ ·) := by
  induction front with
  | nil => simp
  | cons b front ih =>
    rw [List.cons_append, patch, if_neg (h b List.mem_cons_self),
      ih fun x hx => h x (List.mem_cons_of_mem b hx)]
    cases patch call verdict kept <;> rfl

theorem patch_append_of_present {call : BlockId} {verdict : Verdict} {front : List Block}
    (h : ∃ b ∈ front, b.seq = call) (kept : List Block) :
    patch call verdict (front ++ kept) = (patch call verdict front).map (· ++ kept) := by
  induction front with
  | nil => simp at h
  | cons b front ih =>
    rw [List.cons_append, patch, patch]
    by_cases hb : b.seq = call
    · rw [if_pos hb, if_pos hb]
      cases b.kind <;> rfl
    · rw [if_neg hb, if_neg hb]
      obtain ⟨x, hx, hcall⟩ := h
      rcases List.mem_cons.mp hx with rfl | hx
      · exact absurd hcall hb
      · rw [ih ⟨x, hx, hcall⟩]
        cases patch call verdict front <;> rfl

theorem patch_seqs {call : BlockId} {verdict : Verdict} {blocks blocks' : List Block}
    (h : patch call verdict blocks = some blocks') :
    blocks'.map Block.seq = blocks.map Block.seq := by
  induction blocks generalizing blocks' with
  | nil => cases h
  | cons b rest ih =>
    unfold patch at h
    split at h
    · split at h
      · cases h
        rfl
      · cases h
    · obtain ⟨rest', hrest, rfl⟩ := Option.map_eq_some_iff.mp h
      rw [List.map_cons, List.map_cons, ih hrest]

theorem patch_getD_seqs (call : BlockId) (verdict : Verdict) (blocks : List Block) :
    ((patch call verdict blocks).getD blocks).map Block.seq = blocks.map Block.seq := by
  cases hp : patch call verdict blocks with
  | none => rfl
  | some blocks' => exact patch_seqs hp

/-- A verdict whose call has left the window changes nothing that stayed. -/
theorem tail_patch {window : ℕ} {full kept : List Block} (h : Tail window full kept)
    (ordered : full.Pairwise fun a b => a.seq < b.seq) (call : BlockId) (verdict : Verdict) :
    Tail window ((patch call verdict full).getD full) ((patch call verdict kept).getD kept) := by
  have hkept := congrArg List.length (patch_getD_seqs call verdict kept)
  have hfull := congrArg List.length (patch_getD_seqs call verdict full)
  rw [List.length_map, List.length_map] at hkept hfull
  constructor
  · obtain ⟨front, rfl⟩ := h.suffix
    by_cases hin : ∃ b ∈ front, b.seq = call
    · have habsent : ∀ b ∈ kept, b.seq ≠ call := by
        intro b hb heq
        obtain ⟨x, hx, rfl⟩ := hin
        have hlt := (List.pairwise_append.mp ordered).2.2 x hx b hb
        exact absurd heq.symm hlt.ne
      rw [patch_append_of_present hin, patch_eq_none habsent]
      cases patch call verdict front with
      | none => exact List.suffix_append _ _
      | some front' => exact List.suffix_append _ _
    · have habsent : ∀ b ∈ front, b.seq ≠ call := by
        intro b hb heq
        exact hin ⟨b, hb, heq⟩
      rw [patch_append_of_absent habsent]
      cases patch call verdict kept with
      | none => exact List.suffix_append _ _
      | some kept' => exact List.suffix_append _ _
  · intro hnil
    rw [hnil, List.length_nil] at hkept
    rcases h.filled (List.eq_nil_of_length_eq_zero hkept.symm) with hempty | hzero
    · left
      apply List.eq_nil_of_length_eq_zero
      rw [hfull, hempty, List.length_nil]
    · exact Or.inr hzero
  · rw [hkept]
    exact h.within

/-! ## Rewinds -/

/-- A rewind's cut lies in the window or before every block it holds, or in none at all. -/
def Reaches (window anchor : ℕ) (full kept : List Block) : Prop :=
  window ≤ 1 ∨
    (∀ dropped, full = dropped ++ kept → ∀ b ∈ dropped, b.isTurnFrom anchor = false) ∨
    ∀ b, kept.head? = some b → b.isTurnFrom anchor = true

theorem pushed_rewound (window : Option ℕ) (seq : Seq) (anchor : ℕ) (blocks : List Block) :
    pushed window seq (.rewound anchor) blocks =
      Blocks.evict window (blocks ++ [⟨seq, .rewound anchor⟩]) := by
  have hjoined : (blocks.getLast?.bind fun tail =>
      (tail.kind.joined (.rewound anchor)).map (Block.mk tail.seq)) = none := by
    cases blocks.getLast? with
    | none => rfl
    | some tail =>
      obtain ⟨place, kind⟩ := tail
      cases kind <;> rfl
  unfold pushed
  rw [hjoined]

theorem before_append_of_none {anchor : ℕ} {front kept : List Block}
    (h : ∀ b ∈ front, b.isTurnFrom anchor = false) :
    before anchor (front ++ kept) = front ++ before anchor kept :=
  List.takeWhile_append_of_pos fun b hb => by simp [h b hb]

theorem before_append_of_some {anchor : ℕ} {front : List Block}
    (h : ∃ b ∈ front, b.isTurnFrom anchor = true) (kept : List Block) :
    before anchor (front ++ kept) = before anchor front := by
  induction front with
  | nil => simp at h
  | cons b front ih =>
    unfold before
    rw [List.cons_append, List.takeWhile_cons, List.takeWhile_cons]
    cases hb : b.isTurnFrom anchor with
    | true => rfl
    | false =>
      obtain ⟨x, hx, hturn⟩ := h
      rcases List.mem_cons.mp hx with rfl | hx
      · rw [hb] at hturn
        cases hturn
      · have hrest := ih ⟨x, hx, hturn⟩
        unfold before at hrest
        simp [hrest]

theorem before_of_head {anchor : ℕ} {kept : List Block}
    (h : ∀ b, kept.head? = some b → b.isTurnFrom anchor = true) : before anchor kept = [] := by
  cases kept with
  | nil => rfl
  | cons b kept => simp [before, h b rfl]

theorem evict_newest {window : ℕ} (h : window ≤ 1) (blocks : List Block) (b : Block) :
    Blocks.evict (some window) (blocks ++ [b]) <:+ [b] := by
  have hsuffix := evict_suffix (some window) (blocks ++ [b])
  have hlength := evict_length window (blocks ++ [b])
  rcases List.suffix_concat_iff.mp hsuffix with hnil | ⟨init, hinit, -⟩
  · rw [hnil]
    exact List.nil_suffix
  · rw [hinit, List.length_append, List.length_append, List.length_singleton] at hlength
    have hzero : init = [] := List.eq_nil_of_length_eq_zero (by omega)
    exact ⟨[], by rw [List.nil_append, hinit, hzero, List.nil_append]⟩

theorem tail_rewind {window anchor : ℕ} {full kept : List Block} (h : Tail window full kept)
    (reaches : Reaches window anchor full kept) (seq : Seq) :
    Tail window (pushed none seq (.rewound anchor) (before anchor full))
      (pushed (some window) seq (.rewound anchor) (before anchor kept)) := by
  rw [pushed_rewound, pushed_rewound, evict_none]
  rcases reaches with hone | hdropped | hhead
  · have hnewest := @tail_evict _ window _ _ (@List.nil_suffix _ (before anchor full)) seq
      (.rewound anchor)
    have hlength := evict_length window (before anchor kept ++ [⟨seq, .rewound anchor⟩])
    refine ⟨(evict_newest hone _ _).trans (List.suffix_append _ _), ?_, by omega⟩
    intro hnil
    rw [hnil, List.length_nil, List.length_append, List.length_singleton] at hlength
    right
    omega
  · obtain ⟨front, rfl⟩ := h.suffix
    apply tail_evict
    rw [before_append_of_none (hdropped front rfl)]
    exact List.suffix_append _ _
  · apply tail_evict
    rw [before_of_head hhead]
    exact List.nil_suffix

/-- A rewind that cuts from a block the window has dropped leaves it blocks the view no longer
has. -/
theorem reaches_of_suffix {window anchor : ℕ} {full kept : List Block} {seq : Seq}
    (h : kept <:+ full) (ordered : full.Pairwise fun a b => a.seq < b.seq)
    (after : pushed (some window) seq (.rewound anchor) (before anchor kept) <:+
      pushed none seq (.rewound anchor) (before anchor full)) :
    Reaches window anchor full kept := by
  unfold Reaches
  by_contra hnot
  obtain ⟨hwindow, hrest⟩ := not_or.mp hnot
  obtain ⟨hdropped, hhead⟩ := not_or.mp hrest
  push Not at hdropped hhead
  obtain ⟨front, rfl, x, hx, hturn⟩ := hdropped
  obtain ⟨b, hb, hfirst⟩ := hhead
  rw [pushed_rewound, pushed_rewound, evict_none,
    before_append_of_some ⟨x, hx, by simpa using hturn⟩] at after
  -- The last block the cut leaves the window is still in it, beside the rewind's own.
  obtain ⟨init, last, hlast⟩ : ∃ init last, before anchor kept = init ++ [last] := by
    rcases List.eq_nil_or_concat' (before anchor kept) with hnil | ⟨init, last, heq⟩
    · obtain ⟨rest, rfl⟩ := List.head?_eq_some_iff.mp hb
      simp [before, hfirst] at hnil
    · exact ⟨init, last, heq⟩
  have hlength := evict_length window (before anchor kept ++ [⟨seq, .rewound anchor⟩])
  have hsuffix := evict_suffix (some window) (before anchor kept ++ [⟨seq, .rewound anchor⟩])
  have hmem : last ∈ before anchor front := by
    rcases List.suffix_concat_iff.mp hsuffix with hnil | ⟨held, hheld, hin⟩
    · rw [hnil, List.length_nil, List.length_append, List.length_singleton] at hlength
      omega
    · rw [hheld, List.length_append, List.length_append, List.length_singleton, hlast,
        List.length_append, List.length_singleton] at hlength
      have hne : held ≠ [] := by
        intro hnil
        rw [hnil, List.length_nil] at hlength
        omega
      have hend : held.getLast? = some last := by
        rw [← suffix_getLast? hin hne, hlast, List.getLast?_concat]
      rw [hheld] at after
      rcases List.suffix_concat_iff.mp after with hnil | ⟨held', hheld', hin'⟩
      · simp at hnil
      · have hsame : held = held' := List.append_inj_left' hheld' rfl
        exact hin'.subset (hsame ▸ List.mem_of_getLast? hend)
  have hfront : last ∈ front := (List.takeWhile_prefix _).subset hmem
  have hkept : last ∈ kept := by
    apply (List.takeWhile_prefix (p := fun b => !b.isTurnFrom anchor)).subset
    show last ∈ before anchor kept
    rw [hlast]
    simp
  exact lt_irrefl _ ((List.pairwise_append.mp ordered).2.2 last hfront last hkept)

/-! ## Steps -/

/-- No act names a block anew: each keeps its name, and one pushed takes the record's. -/
theorem run_seqs (seq : Seq) (act : Act) (blocks : List Block) :
    ((act.run none seq blocks).map Block.seq).Sublist (blocks.map Block.seq ++ [seq]) := by
  have hpushed : ∀ (kind : BlockKind) (bs : List Block),
      ((pushed none seq kind bs).map Block.seq).Sublist (bs.map Block.seq ++ [seq]) := by
    intro kind bs
    unfold pushed
    rcases List.eq_nil_or_concat' bs with rfl | ⟨init, last, rfl⟩
    · exact List.Sublist.refl _
    · rw [List.getLast?_concat, Option.bind_some]
      cases last.kind.joined kind with
      | none =>
        rw [Option.map_none, evict_none, List.map_append]
        exact List.Sublist.refl _
      | some kind' =>
        rw [Option.map_some, List.dropLast_concat, List.map_append, List.map_append]
        exact List.sublist_append_left _ _
  cases act with
  | push kind => exact hpushed kind blocks
  | patch call verdict =>
    show (((patch call verdict blocks).getD blocks).map Block.seq).Sublist _
    rw [patch_getD_seqs]
    exact List.sublist_append_left _ _
  | rewind anchor =>
    refine (hpushed (.rewound anchor) (before anchor blocks)).trans ?_
    apply List.Sublist.append_right
    exact (List.takeWhile_sublist _).map _
  | clear =>
    refine (hpushed .cleared []).trans ?_
    exact List.sublist_append_right _ _
  | keep => exact List.sublist_append_left _ _

/-- The memo of the fold under a window beside the memo of the whole one. -/
structure Follows (window : ℕ) (full kept : Blocks) : Prop where
  tail : Tail window full.blocks kept.blocks
  model : kept.model = full.model
  seen : kept.seen = full.seen
  ordered : full.blocks.Pairwise fun a b => a.seq < b.seq
  bounded : ∀ b ∈ full.blocks, ∃ s, full.seen = some s ∧ b.seq ≤ s

/-- What the record at hand asks of the two: a rewind not folded yet reaches its cut. -/
def Meets (window : ℕ) (full kept : Blocks) (record : Recorded Record) : Prop :=
  ∀ anchor, record.value = .transcript (.rewound anchor) →
    full.folded record.locus.seq = false → Reaches window anchor full.blocks kept.blocks

theorem follows_new (window : ℕ) : Follows window .default .default := by
  refine ⟨⟨List.suffix_rfl, fun _ => Or.inl rfl, Nat.zero_le _⟩, rfl, rfl, List.Pairwise.nil, ?_⟩
  intro b hb
  cases hb

theorem folded_lt {memo : Blocks} {seq s : Seq} (h : memo.folded seq = false)
    (hs : memo.seen = some s) : s < seq := by
  unfold Blocks.folded at h
  rw [hs] at h
  simpa using h

theorem act_eq_rewind {record : Record} {anchor : ℕ} (h : Act.of record = .rewind anchor) :
    record = .transcript (.rewound anchor) := by
  cases record with
  | control control => cases h
  | display d => cases d <;> cases h
  | forensic f =>
    cases f with
    | providerError error =>
      simp only [Act.of, Act.ofForensic] at h
      split at h <;> cases h
    | _ => cases h
  | transcript p =>
    cases p with
    | userPrompt turn text voice =>
      simp only [Act.of, Act.ofTranscript] at h
      split at h <;> cases h
    | steering text voice =>
      simp only [Act.of, Act.ofTranscript] at h
      split at h <;> cases h
    | evicted eviction =>
      simp only [Act.of, Act.ofTranscript] at h
      split at h <;> cases h
    | rewound other =>
      cases h
      rfl
    | _ => cases h

theorem tail_run {window : ℕ} {full kept : List Block} (h : Tail window full kept)
    (ordered : full.Pairwise fun a b => a.seq < b.seq) (seq : Seq) {act : Act}
    (reaches : ∀ anchor, act = .rewind anchor → Reaches window anchor full kept) :
    Tail window (act.run none seq full) (act.run (some window) seq kept) := by
  cases act with
  | push kind => exact tail_pushed h seq kind
  | patch call verdict => exact tail_patch h ordered call verdict
  | rewind anchor => exact tail_rewind h (reaches anchor rfl) seq
  | clear => exact tail_pushed ⟨List.suffix_rfl, fun _ => Or.inl rfl, Nat.zero_le _⟩ seq .cleared
  | keep => exact h

/-- One record of the two folds: the window keeps up just where the record's cut is reached. -/
theorem follows_step {window : ℕ} {full kept full' : Blocks} {record : Recorded Record}
    {delta : Delta} (h : Follows window full kept)
    (step : full.tryStep none record = .ok (delta, full')) :
    ∃ delta' kept', kept.tryStep (some window) record = .ok (delta', kept') ∧
      (Meets window full kept record → Follows window full' kept') ∧
      (kept'.blocks <:+ full'.blocks → Meets window full kept record) := by
  have hfolded : kept.folded record.locus.seq = full.folded record.locus.seq := by
    unfold Blocks.folded
    rw [h.seen]
  unfold Blocks.tryStep at step ⊢
  dsimp only at step ⊢
  rw [hfolded]
  cases hf : full.folded record.locus.seq with
  | true =>
    rw [hf] at step
    cases step
    refine ⟨_, _, rfl, fun _ => h, ?_⟩
    intro _ anchor _ hnew
    rw [hf] at hnew
    cases hnew
  | false =>
    rw [hf] at step
    simp only [Bool.false_eq_true, if_false, Fallible.map_eq_ok] at step ⊢
    obtain ⟨⟨d, mid⟩, hmid, heq⟩ := step
    cases heq
    have hfull := Blocks.stepRecord_spec none record.locus.seq record.value full
    have hkept := Blocks.stepRecord_spec (some window) record.locus.seq record.value kept
    rw [h.model] at hkept
    cases hm : modelAfter record.value full.model with
    | error misfit =>
      rw [hm] at hfull
      rw [show full.stepRecord none record.locus.seq record.value = _ from hfull] at hmid
      cases hmid
    | ok model =>
      rw [hm] at hfull hkept
      obtain ⟨d₁, mid₁, hstep₁, hblocks₁, hmodel₁⟩ := hfull
      obtain ⟨d₂, mid₂, hstep₂, hblocks₂, hmodel₂⟩ := hkept
      rw [hstep₁] at hmid
      cases hmid
      refine ⟨d₂, _, ⟨_, hstep₂, rfl⟩, ?_, ?_⟩
      · intro hmeets
        have hnew : ∀ b ∈ full.blocks, b.seq < record.locus.seq := by
          intro b hb
          obtain ⟨s, hs, hle⟩ := h.bounded b hb
          exact lt_of_le_of_lt hle (folded_lt hf hs)
        have hseqs := run_seqs record.locus.seq (Act.of record.value) full.blocks
        have hall : (full.blocks.map Block.seq ++ [record.locus.seq]).Pairwise (· < ·) := by
          rw [List.pairwise_append, List.pairwise_map]
          refine ⟨h.ordered, List.pairwise_singleton _ _, ?_⟩
          intro s hs t ht
          obtain ⟨b, hb, rfl⟩ := List.mem_map.mp hs
          rw [List.mem_singleton.mp ht]
          exact hnew b hb
        rw [← hblocks₁] at hseqs
        constructor
        · dsimp only
          rw [hblocks₁, hblocks₂]
          apply tail_run h.tail h.ordered
          intro anchor hanchor
          exact hmeets anchor (act_eq_rewind hanchor) hf
        · exact hmodel₂.trans hmodel₁.symm
        · rfl
        · exact List.pairwise_map.mp (hall.sublist hseqs)
        · intro b hb
          refine ⟨record.locus.seq, rfl, ?_⟩
          rcases List.mem_append.mp (hseqs.subset (List.mem_map_of_mem hb)) with hold | hown
          · obtain ⟨x, hx, heq⟩ := List.mem_map.mp hold
            rw [← heq]
            exact (hnew x hx).le
          · exact (List.mem_singleton.mp hown).le
      · intro hsuffix anchor hvalue _
        dsimp only at hsuffix
        rw [hblocks₁, hblocks₂, hvalue] at hsuffix
        exact reaches_of_suffix h.tail.suffix h.ordered hsuffix

/-! ## Runs -/

structure Windowed (window : ℕ) (log : List (Recorded Record)) : Prop where
  suffix : ∀ past rest full, log = past ++ rest → Blocks.default.replay none past = .ok full →
    ∃ kept, Blocks.default.replay (some window) past = .ok kept ∧ kept.blocks <:+ full.blocks
  /-- Records of the log stepped again change nothing. -/
  again : ∀ kept, Blocks.default.replay (some window) log = .ok kept →
    ∀ part, part ⊆ log → kept.replay (some window) part = .ok kept

def Within (window : ℕ) (log : List (Recorded Record)) : Prop :=
  ∀ past record rest full kept, log = past ++ record :: rest →
    Blocks.default.replay none past = .ok full →
      Blocks.default.replay (some window) past = .ok kept → Meets window full kept record

namespace Blocks

theorem replay_append {window : Option ℕ} {memo memo' : Blocks} {xs ys : List (Recorded Record)} :
    memo.replay window (xs ++ ys) = .ok memo' ↔
      ∃ mid, memo.replay window xs = .ok mid ∧ mid.replay window ys = .ok memo' :=
  Fallible.foldlM_append_eq_ok

theorem replay_singleton {window : Option ℕ} {memo memo' : Blocks} {record : Recorded Record} :
    memo.replay window [record] = .ok memo' ↔
      ∃ delta, memo.tryStep window record = .ok (delta, memo') := by
  unfold replay
  rw [Fallible.foldlM_cons_eq_ok]
  simp only [Fallible.map_eq_ok, List.foldlM_nil]
  constructor
  · intro h
    obtain ⟨m, ⟨⟨delta, next⟩, hstep, rfl⟩, hpure⟩ := h
    cases hpure
    exact ⟨delta, hstep⟩
  · intro h
    obtain ⟨delta, hstep⟩ := h
    exact ⟨memo', ⟨(delta, memo'), hstep, rfl⟩, rfl⟩

/-- A step leaves its record folded, and what was folded stays so. -/
theorem tryStep_folded {window : Option ℕ} {memo memo' : Blocks} {record : Recorded Record}
    {delta : Delta} (h : memo.tryStep window record = .ok (delta, memo')) :
    memo'.folded record.locus.seq = true ∧ ∀ seq, memo.folded seq = true → memo'.folded seq = true := by
  unfold tryStep at h
  dsimp only at h
  cases hf : memo.folded record.locus.seq with
  | true =>
    rw [hf] at h
    cases h
    exact ⟨hf, fun _ hseq => hseq⟩
  | false =>
    rw [hf] at h
    simp only [Bool.false_eq_true, if_false, Fallible.map_eq_ok] at h
    obtain ⟨⟨d, mid⟩, hmid, heq⟩ := h
    cases heq
    refine ⟨by simp [folded], ?_⟩
    intro seq hseq
    cases hs : memo.seen with
    | none => simp [folded, hs] at hseq
    | some s =>
      have hle : seq ≤ s := by simpa [folded, hs] using hseq
      simpa [folded] using hle.trans (folded_lt hf hs).le

theorem replay_folded {window : Option ℕ} {memo memo' : Blocks} {log : List (Recorded Record)}
    (h : memo.replay window log = .ok memo') :
    (∀ seq, memo.folded seq = true → memo'.folded seq = true) ∧
      ∀ record ∈ log, memo'.folded record.locus.seq = true := by
  induction log using List.reverseRecOn generalizing memo' with
  | nil =>
    cases h
    exact ⟨fun _ hseq => hseq, by simp⟩
  | append_singleton log last ih =>
    obtain ⟨mid, hmid, hlast⟩ := replay_append.mp h
    obtain ⟨delta, hstep⟩ := replay_singleton.mp hlast
    obtain ⟨hkept, hall⟩ := ih hmid
    obtain ⟨hown, hstays⟩ := tryStep_folded hstep
    refine ⟨fun seq hseq => hstays seq (hkept seq hseq), ?_⟩
    intro record hrecord
    rcases List.mem_append.mp hrecord with hin | hin
    · exact hstays _ (hall record hin)
    · rw [List.mem_singleton.mp hin]
      exact hown

theorem replay_again {window : Option ℕ} {memo : Blocks} {part : List (Recorded Record)}
    (h : ∀ record ∈ part, memo.folded record.locus.seq = true) :
    memo.replay window part = .ok memo := by
  induction part using List.reverseRecOn with
  | nil => rfl
  | append_singleton part last ih =>
    have hlast := h last (by simp)
    have hpart := ih fun record hrecord => h record (List.mem_append_left _ hrecord)
    refine replay_append.mpr ⟨memo, hpart, replay_singleton.mpr ⟨.quiet, ?_⟩⟩
    unfold tryStep
    rw [if_pos hlast]

end Blocks

/-- Where each part of a log keeps to the condition or to what it promises, the two folds stay
together. -/
theorem follows_replay {window : ℕ} {log : List (Recorded Record)}
    (keeps : ∀ past record rest full kept full' kept', log = past ++ record :: rest →
      Blocks.default.replay none past = .ok full →
      Blocks.default.replay (some window) past = .ok kept →
      Blocks.default.replay none (past ++ [record]) = .ok full' →
      Blocks.default.replay (some window) (past ++ [record]) = .ok kept' →
      Meets window full kept record ∨ kept'.blocks <:+ full'.blocks) :
    ∀ past rest full, log = past ++ rest → Blocks.default.replay none past = .ok full →
      ∃ kept, Blocks.default.replay (some window) past = .ok kept ∧ Follows window full kept := by
  intro past
  induction past using List.reverseRecOn with
  | nil =>
    intro rest full _ hfull
    cases hfull
    exact ⟨.default, rfl, follows_new window⟩
  | append_singleton past record ih =>
    intro rest full' hlog hfull'
    rw [List.append_assoc] at hlog
    obtain ⟨full, hfull, hlast⟩ := Blocks.replay_append.mp hfull'
    obtain ⟨delta, hstep⟩ := Blocks.replay_singleton.mp hlast
    obtain ⟨kept, hkept, hfollows⟩ := ih (record :: rest) full hlog hfull
    obtain ⟨delta', kept', hstep', hforward, hback⟩ := follows_step hfollows hstep
    have hkept' := Blocks.replay_append.mpr ⟨kept, hkept, Blocks.replay_singleton.mpr ⟨_, hstep'⟩⟩
    refine ⟨kept', hkept', hforward ?_⟩
    rcases keeps past record rest full kept full' kept' hlog hfull hkept hfull' hkept' with
      hmeets | hsuffix
    · exact hmeets
    · exact hback hsuffix

/-- A window holds the end of the whole view after every part of a log just where every rewind
reaches its cut; records stepped again change nothing in any case. -/
theorem windowed_iff_within (window : ℕ) (log : List (Recorded Record)) :
    Windowed window log ↔ Within window log := by
  constructor
  · intro hwindowed past record rest full kept hlog hfull hkept anchor hvalue hnew
    have hfollows := @follows_replay _ window log (by
      intro past record rest full kept full' kept' hlog _ _ hfull' hkept'
      obtain ⟨held, hheld, hsuffix⟩ := hwindowed.suffix (past ++ [record]) rest full'
        (by simpa using hlog) hfull'
      rw [hkept'] at hheld
      cases hheld
      exact Or.inr hsuffix) past (record :: rest) full hlog hfull
    obtain ⟨held, hheld, hfollows⟩ := hfollows
    rw [hkept] at hheld
    cases hheld
    -- A rewind is admitted whatever the memo, so the log goes on past it.
    obtain ⟨delta, full', hstep⟩ : ∃ delta full', full.tryStep none record = .ok (delta, full') := by
      unfold Blocks.tryStep
      rw [if_neg (by simp [hnew]), hvalue]
      exact ⟨_, _, rfl⟩
    obtain ⟨delta', kept', hstep', -, hback⟩ := follows_step hfollows hstep
    have hfull' := Blocks.replay_append.mpr ⟨full, hfull, Blocks.replay_singleton.mpr ⟨_, hstep⟩⟩
    have hkept' := Blocks.replay_append.mpr ⟨kept, hkept, Blocks.replay_singleton.mpr ⟨_, hstep'⟩⟩
    obtain ⟨held, hheld, hsuffix⟩ := hwindowed.suffix (past ++ [record]) rest full'
      (by simpa using hlog) hfull'
    rw [hkept'] at hheld
    cases hheld
    exact hback hsuffix anchor hvalue hnew
  · intro hwithin
    constructor
    · intro past rest full hlog hfull
      obtain ⟨kept, hkept, hfollows⟩ := @follows_replay _ window log (by
        intro past record rest full kept _ _ hlog hfull hkept _ _
        exact Or.inl (hwithin past record rest full kept hlog hfull hkept)) past rest full hlog hfull
      exact ⟨kept, hkept, hfollows.tail.suffix⟩
    · intro kept hkept part hpart
      apply Blocks.replay_again
      intro record hrecord
      exact (Blocks.replay_folded hkept).2 record (hpart hrecord)

/-! ## A turn longer than the window -/

/-- A view with nothing to carry. -/
@[reducible] def bare : Payloads where
  Change := Unit
  Card := Unit
  Done := Unit
  SpanRow := Unit
  Spent := Unit
  ProviderError := Unit
  stallCause _ := none
  Severed := Unit
  code _ := ""
  shown _ := ""
  Usage := Unit
  noUsage := ()
  add _ _ := ()
  measuredInput _ := none

def sole (commit : ℕ) (record : Record) : Recorded Record :=
  ⟨⟨⟨commit, 0⟩, ⟨0, 1⟩, ⟨0, Record.Sum.zero_lt⟩⟩, record⟩

def call : Record := .display (.toolCall "ral" "ls" none)

def longTurn (calls : ℕ) : List (Recorded Record) :=
  sole 1 (.transcript (.userPrompt 1 "go" .human)) :: sole 2 (.forensic (.turnStarted 2)) ::
    (List.range calls).map fun k => sole (k + 3) call

def callBlock (k : ℕ) : Block := ⟨⟨k + 3, 0⟩, .toolCall "ral" "ls" none none⟩

theorem longTurn_replay (calls : ℕ) : ∃ full, Blocks.default.replay none (longTurn calls) = .ok full ∧
    full.blocks = ⟨⟨1, 0⟩, .prompt "go" (some 1)⟩ :: ⟨⟨2, 0⟩, .turn 2⟩ ::
      (List.range calls).map callBlock ∧
    full.seen = some ⟨calls + 2, 0⟩ := by
  induction calls with
  | zero => exact ⟨_, rfl, rfl, rfl⟩
  | succ calls ih =>
    obtain ⟨full, hfull, hblocks, hseen⟩ := ih
    have hsplit : longTurn (calls + 1) = longTurn calls ++ [sole (calls + 3) call] := by
      simp [longTurn, List.range_succ]
    have hnew : full.folded ⟨calls + 3, 0⟩ = false := by
      have hlt : (⟨calls + 2, 0⟩ : Seq) < ⟨calls + 3, 0⟩ :=
        Prod.Lex.toLex_lt_toLex.mpr (Or.inl (Nat.lt_succ_self _))
      unfold Blocks.folded
      rw [hseen]
      simpa using hlt
    have hlast : ∀ tail, full.blocks.getLast? = some tail →
        tail.kind.joined (.toolCall "ral" "ls" none none) = none := by
      intro tail _
      obtain ⟨place, kind⟩ := tail
      cases kind <;> rfl
    have hpush : pushed none ⟨calls + 3, 0⟩ (.toolCall "ral" "ls" none none) full.blocks =
        full.blocks ++ [callBlock calls] := by
      unfold pushed
      cases hl : full.blocks.getLast? with
      | none => exact evict_none _
      | some tail =>
        rw [Option.bind_some, hlast tail hl]
        exact evict_none _
    have hblocks' := (Blocks.push_blocks none ⟨calls + 3, 0⟩ (.toolCall "ral" "ls" none none)
      full).1
    refine ⟨{ (full.push none ⟨calls + 3, 0⟩ (.toolCall "ral" "ls" none none)).2 with
      seen := some ⟨calls + 3, 0⟩ }, ?_, ?_, rfl⟩
    · rw [hsplit]
      refine Blocks.replay_append.mpr ⟨full, hfull, Blocks.replay_singleton.mpr
        ⟨(full.push none ⟨calls + 3, 0⟩ (.toolCall "ral" "ls" none none)).1, ?_⟩⟩
      unfold Blocks.tryStep
      rw [if_neg (by simpa [sole] using hnew)]
      rfl
    · dsimp only
      rw [hblocks', hpush, hblocks, List.range_succ, List.map_append]
      rfl

theorem call_plain {record : Recorded Record} {calls anchor : ℕ} (h : record ∈ longTurn calls) :
    record.value ≠ .transcript (.rewound anchor) := by
  rcases List.mem_cons.mp h with rfl | h
  · simp [sole]
  rcases List.mem_cons.mp h with rfl | h
  · simp [sole]
  · obtain ⟨k, -, rfl⟩ := List.mem_map.mp h
    simp [sole, call]

/-- The long turn's own rewind leaves a window short of it calls the whole view has cut. -/
theorem longTurn_not_windowed {window : ℕ} (h : 1 < window) :
    ¬ Windowed window (longTurn window ++ [sole (window + 3) (.transcript (.rewound 1))]) := by
  intro hwindowed
  obtain ⟨full, hfull, hblocks, hseen⟩ := longTurn_replay window
  obtain ⟨kept, hkept, hfollows⟩ := @follows_replay _ window (longTurn window) (by
    intro past record rest _ _ _ _ hlog _ _ _ _
    left
    intro anchor hvalue
    exact absurd hvalue (call_plain (by rw [hlog]; simp))) (longTurn window) [] full (by simp) hfull
  have hnew : full.folded ⟨window + 3, 0⟩ = false := by
    have hlt : (⟨window + 2, 0⟩ : Seq) < ⟨window + 3, 0⟩ :=
      Prod.Lex.toLex_lt_toLex.mpr (Or.inl (Nat.lt_succ_self _))
    unfold Blocks.folded
    rw [hseen]
    simpa using hlt
  obtain ⟨delta, full', hstep⟩ : ∃ delta full', full.tryStep none
      (sole (window + 3) (.transcript (.rewound 1))) = .ok (delta, full') := by
    unfold Blocks.tryStep
    rw [if_neg (by simpa [sole] using hnew)]
    exact ⟨_, _, rfl⟩
  obtain ⟨delta', kept', hstep', -, hback⟩ := follows_step hfollows hstep
  have hfull' := Blocks.replay_append.mpr ⟨full, hfull, Blocks.replay_singleton.mpr ⟨_, hstep⟩⟩
  have hkept' := Blocks.replay_append.mpr ⟨kept, hkept, Blocks.replay_singleton.mpr ⟨_, hstep'⟩⟩
  obtain ⟨held, hheld, hsuffix⟩ := hwindowed.suffix _ [] full' (by simp) hfull'
  rw [hkept'] at hheld
  cases hheld
  have hreaches := hback hsuffix 1 rfl hnew
  obtain ⟨front, hfront⟩ := hfollows.tail.suffix
  have hwithin := hfollows.tail.within
  have hlength := congrArg List.length (hfront.trans hblocks)
  rw [List.length_append, List.length_cons, List.length_cons, List.length_map, List.length_range] at hlength
  rcases front with _ | ⟨first, _ | ⟨second, front⟩⟩
  · rw [List.length_nil] at hlength
    omega
  · rw [List.length_singleton] at hlength
    omega
  · rw [hblocks, List.cons_append, List.cons_append] at hfront
    obtain ⟨hfirst, hrest⟩ := List.cons.inj hfront
    obtain ⟨-, htail⟩ := List.cons.inj hrest
    rcases hreaches with hone | hdropped | hhead
    · omega
    · have := hdropped (first :: second :: front) (by rw [hblocks, ← hfront]; rfl) first List.mem_cons_self
      rw [hfirst] at this
      cases this
    · cases hk : kept.blocks with
      | nil =>
        rcases hfollows.tail.filled hk with hnil | hzero
        · rw [hblocks] at hnil
          cases hnil
        · omega
      | cons b rest =>
        have hmem : b ∈ (List.range window).map callBlock := by
          rw [← htail, hk]
          simp
        obtain ⟨k, -, rfl⟩ := List.mem_map.mp hmem
        have := hhead (callBlock k) (by rw [hk]; rfl)
        cases this

omit [Payloads] in
/-- A prompt, a turn of as many calls as the window holds, and a rewind to the prompt: the
window keeps calls of the turn withdrawn. -/
theorem withdrawn_calls_stay : ∃ _ : Payloads, ¬ Windowed blocksWindow
    (longTurn blocksWindow ++ [sole (blocksWindow + 3) (.transcript (.rewound 1))]) :=
  ⟨bare, @longTurn_not_windowed bare blocksWindow (by decide)⟩

end Ral.View
