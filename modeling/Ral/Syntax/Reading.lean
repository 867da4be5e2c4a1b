import Ral.Syntax.Placed
import Ral.Syntax.Statements

/-! # Readings

What a production does to the cursor: it ends, in the stream and at the depth it began, no
earlier than it began, and what it returns satisfies a postcondition.
-/

namespace Ral.Syntax

/-- One stream and depth, and no way back. -/
structure Moves (s t : Parser) : Prop where
  tokens : t.tokens = s.tokens
  depth : t.depth = s.depth
  pos : s.pos ≤ t.pos
  origin : t.at' = s.at'

theorem Moves.refl (s : Parser) : Moves s s := ⟨rfl, rfl, le_refl _, rfl⟩

theorem Moves.trans {s t u : Parser} (h : Moves s t) (h' : Moves t u) : Moves s u :=
  ⟨h'.tokens.trans h.tokens, h'.depth.trans h.depth, le_trans h.pos h'.pos, h'.origin.trans h.origin⟩

/-! ## The calculus -/

def Reads {α : Type} (x : Parse α) (s : Parser) (P : α → Parser → Prop) : Prop :=
  ∃ r t, x s = some (r, t) ∧ Moves s t ∧ ∀ a, r = .ok a → P a t

namespace Reads
variable {α β : Type} {s : Parser} {P Q : α → Parser → Prop}

theorem mono {x : Parse α} (h : Reads x s P) (hq : ∀ a t, Moves s t → P a t → Q a t) :
    Reads x s Q := by
  obtain ⟨r, t, hx, hm, hp⟩ := h
  exact ⟨r, t, hx, hm, fun a ha => hq a t hm (hp a ha)⟩

theorem pure {a : α} (h : P a s) : Reads (Pure.pure a) s P :=
  ⟨.ok a, s, rfl, .refl s, fun b hb => by cases hb; exact h⟩

theorem fail {e : ParseError} : Reads (Run.fail e) s P :=
  ⟨.error e, s, rfl, .refl s, fun b hb => by cases hb⟩

theorem bind {x : Parse α} {f : α → Parse β} {P : β → Parser → Prop} (h : Reads x s Q)
    (hf : ∀ a t, Moves s t → Q a t → Reads (f a) t P) : Reads (x >>= f) s P := by
  obtain ⟨r, t, hx, hm, hq⟩ := h
  cases r with
  | error e =>
    exact ⟨.error e, t, Run.bind_eq_error.mpr (Or.inl hx), hm, fun b hb => by cases hb⟩
  | ok a =>
    obtain ⟨r, u, hu, hm', hp⟩ := hf a t hm (hq a rfl)
    exact ⟨r, u, (Run.bind_ok hx).trans hu, hm.trans hm', hp⟩

theorem get {f : Parser → Parse β} {P : β → Parser → Prop} (h : Reads (f s) s P) :
    Reads (Run.get >>= f) s P := h

theorem ite {c : Prop} [Decidable c] {x y : Parse α} (hx : c → Reads x s P)
    (hy : ¬c → Reads y s P) : Reads (if c then x else y) s P := by
  split
  · exact hx ‹_›
  · exact hy ‹_›

theorem ofExcept {r : Except ParseError α} (h : ∀ a, r = .ok a → P a s) :
    Reads (Run.ofExcept r) s P := ⟨r, s, rfl, .refl s, h⟩

theorem lift {x : Option (Except ParseError α)} {r : Except ParseError α} (hx : x = some r)
    (h : ∀ a, r = .ok a → P a s) : Reads (Run.lift x) s P :=
  ⟨r, s, by simp [Run.lift, hx], .refl s, h⟩

theorem attempt {x : Parse α} {P : Except ParseError α → Parser → Prop}
    (h : Reads x s fun a t => P (.ok a) t) (he : ∀ e t, P (.error e) t) :
    Reads (Run.attempt x) s P := by
  obtain ⟨r, t, hx, hm, hp⟩ := h
  refine ⟨.ok r, t, by simp [Run.attempt, hx], hm, ?_⟩
  intro a ha
  cases ha
  cases r with
  | error e => exact he e t
  | ok a => exact hp a rfl

end Reads

/-! ### Since an earlier place -/

/-- An outcome at `t` no earlier than `s`, from where the cursor may be taken back. -/
def ReadsSince {α : Type} (s : Parser) (x : Parse α) (t : Parser) (P : α → Parser → Prop) : Prop :=
  ∃ r u, x t = some (r, u) ∧ Moves s u ∧ ∀ a, r = .ok a → P a u

theorem Reads.since {α : Type} {s t : Parser} {x : Parse α} {P : α → Parser → Prop}
    (h : Reads x t P) (hm : Moves s t) : ReadsSince s x t P := by
  obtain ⟨r, u, hx, hm', hp⟩ := h
  exact ⟨r, u, hx, hm.trans hm', hp⟩

theorem Reads.bind_since {α β : Type} {s : Parser} {x : Parse α} {f : α → Parse β} {Q : α → Parser → Prop}
    {P : β → Parser → Prop} (h : Reads x s Q)
    (hf : ∀ a t, Moves s t → Q a t → ReadsSince s (f a) t P) : Reads (x >>= f) s P := by
  obtain ⟨r, t, hx, hm, hq⟩ := h
  cases r with
  | error e =>
    exact ⟨.error e, t, Run.bind_eq_error.mpr (Or.inl hx), hm, fun b hb => by cases hb⟩
  | ok a =>
    obtain ⟨r, u, hu, hm', hp⟩ := hf a t hm (hq a rfl)
    exact ⟨r, u, (Run.bind_ok hx).trans hu, hm', hp⟩

/-! ## The cursor -/

namespace Parser
variable {s : Parser}

theorem lt_of_peek (h : s.peek ≠ .eof) : s.pos < s.tokens.length := by
  by_contra hn
  apply h
  have hnone : s.tokens[s.pos]? = none := by
    rw [List.getElem?_eq_none_iff]
    omega
  simp [peek, peekAt, hnone]

theorem lt_of_is {token : Token} (h : s.peek.is token = true) (hne : token.is .eof = false) :
    s.pos < s.tokens.length := by
  apply lt_of_peek
  intro he
  rw [he] at h
  simp only [Token.is, decide_eq_true_eq, decide_eq_false_iff_not] at h hne
  exact hne h.symm

theorem peek_eq (h : s.pos < s.tokens.length) : s.peek = s.tokens[s.pos].token := by
  simp [peek, peekAt, List.getElem?_eq_getElem h]

theorem next_pos (h : s.pos < s.tokens.length) : s.next.pos = s.pos + 1 := by
  simp [next, h]

theorem moves_next : Moves s s.next := by
  unfold next
  split
  · exact ⟨rfl, rfl, Nat.le_succ _, rfl⟩
  · exact .refl s

end Parser

namespace Parse
variable {α β : Type} {s : Parser}

theorem reads_advance : Reads advance s fun _ t => s.pos < s.tokens.length → t.pos = s.pos + 1 :=
  ⟨.ok (), s.next, rfl, Parser.moves_next, fun _ _ h => Parser.next_pos h⟩

theorem reads_eat {token : Token} (hne : token.is .eof = false) :
    Reads (eat token) s fun eaten t =>
      (eaten = true → s.peek.is token = true ∧ t.pos = s.pos + 1) ∧ (eaten = false → t = s) := by
  apply Reads.get
  apply Reads.ite
  · intro h
    apply reads_advance.bind
    intro _ t _ hpos
    exact .pure ⟨fun _ => ⟨h, hpos (Parser.lt_of_is h hne)⟩, nofun⟩
  · intro _
    exact .pure ⟨nofun, fun _ => rfl⟩

theorem reads_expect {token : Token} (hne : token.is .eof = false) :
    Reads (expect token) s fun _ t => t.pos = s.pos + 1 := by
  apply Reads.get
  apply Reads.ite
  · intro h
    exact reads_advance.mono fun _ _ _ hpos => hpos (Parser.lt_of_is h hne)
  · intro _
    exact .fail

theorem reads_failAt {message : String} {P : α → Parser → Prop} : Reads (failAt message) s P :=
  .get .fail

theorem reads_requireContinuation {what : String} :
    Reads (requireContinuation what) s fun _ t => t = s := by
  apply Reads.get
  apply Reads.ite
  · intro _
    exact .fail
  · intro _
    exact .pure rfl

theorem reads_attached {message : String} : Reads (attached message) s fun _ t => t = s := by
  apply Reads.get
  apply Reads.ite
  · intro _
    exact .pure rfl
  · intro _
    exact .fail

/-! ### Loops -/

/-- What a turn must show: another one only after a step, with the invariant. -/
def TurnOk (I : α → Parser → Prop) (P : β → Parser → Prop) (t : Parser) :
    Turn α β → Parser → Prop
  | .again acc, u => t.pos < u.pos ∧ I acc u
  | .done result, u => P result u

theorem reads_turns {body : α → Parse (Turn α β)} {I : α → Parser → Prop} {P : β → Parser → Prop}
    (hbody : ∀ acc t, I acc t → Reads (body acc) t (TurnOk I P t)) {n : ℕ} {acc : α}
    (hn : s.tokens.length - s.pos < n) (init : I acc s) : Reads (turns body n acc) s P := by
  induction n generalizing s acc with
  | zero => omega
  | succ n ih =>
    apply Reads.get
    apply (hbody acc s init).bind
    intro turn t hm hturn
    cases turn with
    | done result => exact .pure hturn
    | again acc =>
      obtain ⟨hlt, hinv⟩ := hturn
      apply Reads.get
      rw [if_pos hlt]
      apply ih _ hinv
      have hinside := t.inside
      rw [hm.tokens] at hinside ⊢
      omega

theorem reads_loop {body : α → Parse (Turn α β)} (I : α → Parser → Prop) {P : β → Parser → Prop}
    {acc : α} (init : I acc s)
    (hbody : ∀ acc t, Moves s t → I acc t → Reads (body acc) t (TurnOk I P t)) :
    Reads (loop body acc) s P := by
  apply Reads.get
  have hturn : ∀ acc t, (Moves s t ∧ I acc t) →
      Reads (body acc) t (TurnOk (fun acc u => Moves s u ∧ I acc u) P t) := by
    intro acc t h
    apply (hbody acc t h.1 h.2).mono
    intro turn u hm hturn
    cases turn with
    | done result => exact hturn
    | again acc => exact ⟨hturn.1, h.1.trans hm, hturn.2⟩
  exact reads_turns hturn (Nat.lt_succ_self _) ⟨.refl s, init⟩

theorem reads_skipWhile {skips : Token → Bool} (hskips : skips .eof = false) :
    Reads (skipWhile skips) s fun _ _ => True := by
  apply reads_loop (fun _ _ => True) trivial
  intro _ t _ _
  apply Reads.get
  apply Reads.ite
  · intro h
    apply reads_advance.bind
    intro _ u _ hpos
    have hlt : t.pos < t.tokens.length := by
      apply Parser.lt_of_peek
      intro he
      rw [he, hskips] at h
      cases h
    have hpos := hpos hlt
    exact .pure ⟨by omega, trivial⟩
  · intro _
    exact .pure trivial

theorem reads_skipNewlines : Reads skipNewlines s fun _ _ => True := reads_skipWhile rfl

theorem reads_skipSeparators : Reads skipSeparators s fun _ _ => True := reads_skipWhile rfl

/-! ### Rewinding -/

theorem readsSince_rewind {t : Parser} {b : β} {P : β → Parser → Prop} (hm : Moves s t)
    (h : ∀ u, Moves s u → u.pos = s.pos → P b u) :
    ReadsSince s (Run.modify (fun p => p.rewind s.pos) >>= fun _ => pure b) t P := by
  have hinside := s.inside
  have hle : s.pos ≤ t.tokens.length := by rwa [hm.tokens]
  have hrewind : t.rewind s.pos = { t with pos := s.pos, inside := hle } := by
    simp [Parser.rewind, hle]
  have hback : Moves s (t.rewind s.pos) ∧ (t.rewind s.pos).pos = s.pos := by
    rw [hrewind]
    exact ⟨⟨hm.tokens, hm.depth, le_refl _, hm.origin⟩, rfl⟩
  refine ⟨.ok b, t.rewind s.pos, rfl, hback.1, ?_⟩
  intro a ha
  cases ha
  exact h _ hback.1 hback.2

theorem reads_eatContinuation {token : Token} (hne : token.is .eof = false) :
    Reads (eatContinuation token) s fun eaten t =>
      (eaten = true → s.pos < t.pos) ∧ (eaten = false → t.pos = s.pos) := by
  apply Reads.get
  apply reads_skipNewlines.bind_since
  intro _ t hm _
  show ReadsSince s (if t.peek.is token then _ else _) t _
  split
  · next h =>
    apply Reads.since _ hm
    apply reads_advance.bind
    intro _ u _ hpos
    have hpos := hpos (Parser.lt_of_is h hne)
    apply reads_skipNewlines.bind
    intro _ v hv _
    have hle := hm.pos
    have hle' := hv.pos
    exact .pure ⟨fun _ => by omega, nofun⟩
  · exact readsSince_rewind hm fun u _ hpos => ⟨nofun, fun _ => hpos⟩

/-! ### Descent -/

theorem reads_nested {body : Parse α} {P : α → Parser → Prop}
    (h : s.depth < Lex.nestingDepthLimit → Reads body s.deeper fun a t => P a t.shallower) :
    Reads (nested body) s P := by
  apply Reads.get
  apply Reads.ite
  · intro hlt
    obtain ⟨r, t, hx, hm, hp⟩ := h hlt
    have hdeeper : s.deeper = { s with depth := s.depth + 1, shallow := hlt } := by
      simp [Parser.deeper, hlt]
    have hdepth : t.depth = s.depth + 1 := by rw [hm.depth, hdeeper]
    have hmoves : Moves s t.shallower := by
      rw [hdeeper] at hm
      exact ⟨hm.tokens, by simp [Parser.shallower, hdepth], hm.pos, hm.origin⟩
    refine ⟨r, t.shallower, ?_, hmoves, fun a ha => hp a ha⟩
    have hne : ¬t.depth = 0 := by omega
    show Run.bind _ _ s = _
    simp [Run.bind, Run.modify, Run.attempt, hx, bind, Run.get, hne, Run.ofExcept]
  · intro _
    exact .fail

end Parse

/-! ## Spans of readings

A production that consumed tokens covers the text from the first of them to the last. What it
read is held by every window of the stream around it.
-/

theorem Lexeme.mk_eta (l : Lexeme) : .mk l.token l.span = l := by
  cases l
  rfl

/-! ## Windows -/

def startAt (tokens : List Lexeme) (i : ℕ) : ℕ :=
  match tokens[i]? with
  | some l => l.span.start
  | none => 0

def stopAt (tokens : List Lexeme) (i : ℕ) : ℕ :=
  match tokens[i]? with
  | some l => l.span.stop
  | none => 0

def coverAt (tokens : List Lexeme) (i j : ℕ) : Span := ⟨startAt tokens i, stopAt tokens (j - 1)⟩

theorem startAt_eq {tokens : List Lexeme} {i : ℕ} (h : i < tokens.length) :
    startAt tokens i = tokens[i].span.start := by
  simp [startAt, List.getElem?_eq_getElem h]

theorem stopAt_eq {tokens : List Lexeme} {i : ℕ} (h : i < tokens.length) :
    stopAt tokens i = tokens[i].span.stop := by
  simp [stopAt, List.getElem?_eq_getElem h]

namespace Laid
variable {whole : Span} {tokens : List Lexeme} {i j : ℕ}

theorem start_le_stop (h : Laid whole tokens) (hij : i ≤ j) (hj : j < tokens.length) :
    startAt tokens i ≤ stopAt tokens j := by
  have hi : i < tokens.length := lt_of_le_of_lt hij hj
  rw [startAt_eq hi, stopAt_eq hj]
  have hati := (h.inside tokens[i] (List.getElem_mem hi)).ordered
  have hatj := (h.inside tokens[j] (List.getElem_mem hj)).ordered
  rcases Nat.eq_or_lt_of_le hij with rfl | hlt
  · exact hati
  · have hnext := List.pairwise_iff_getElem.mp h.ordered i j hi hj hlt
    omega

theorem startAt_le (h : Laid whole tokens) (hij : i ≤ j) (hj : j < tokens.length) :
    startAt tokens i ≤ startAt tokens j := by
  have hi : i < tokens.length := lt_of_le_of_lt hij hj
  rw [startAt_eq hi, startAt_eq hj]
  have hati := (h.inside tokens[i] (List.getElem_mem hi)).ordered
  rcases Nat.eq_or_lt_of_le hij with rfl | hlt
  · exact le_refl _
  · have hnext := List.pairwise_iff_getElem.mp h.ordered i j hi hj hlt
    omega

theorem stopAt_le (h : Laid whole tokens) (hij : i ≤ j) (hj : j < tokens.length) :
    stopAt tokens i ≤ stopAt tokens j := by
  have hi : i < tokens.length := lt_of_le_of_lt hij hj
  rw [stopAt_eq hi, stopAt_eq hj]
  have hatj := (h.inside tokens[j] (List.getElem_mem hj)).ordered
  rcases Nat.eq_or_lt_of_le hij with rfl | hlt
  · exact le_refl _
  · have hnext := List.pairwise_iff_getElem.mp h.ordered i j hi hj hlt
    omega

theorem cover_inside (h : Laid whole tokens) {a b : ℕ} (ha : i ≤ a) (hab : a < b) (hb : b ≤ j)
    (hj : j ≤ tokens.length) : (coverAt tokens a b).Inside (coverAt tokens i j) :=
  ⟨h.startAt_le ha (by omega), h.start_le_stop (by omega) (by omega),
    h.stopAt_le (by omega) (by omega)⟩

theorem cover_whole (h : Laid whole tokens) (hij : i < j) (hj : j ≤ tokens.length) :
    (coverAt tokens i j).Inside whole := by
  refine ⟨?_, h.start_le_stop (by omega) (by omega), ?_⟩
  · simp only [coverAt]
    rw [startAt_eq (by omega)]
    exact (h.inside _ (List.getElem_mem _)).start
  · simp only [coverAt]
    rw [stopAt_eq (by omega)]
    exact (h.inside _ (List.getElem_mem _)).stop

end Laid

def Held (tokens : List Lexeme) (a b : ℕ) (P : Span → Prop) : Prop :=
  ∀ i j, i ≤ a → b ≤ j → j ≤ tokens.length → P (coverAt tokens i j)

theorem Held.widen {tokens : List Lexeme} {a b a' b' : ℕ} {P : Span → Prop} (h : Held tokens a b P)
    (ha : a' ≤ a) (hb : b ≤ b') : Held tokens a' b' P :=
  fun i j hi hj => h i j (le_trans hi ha) (le_trans hb hj)

/-! ## Sites -/

/-- A parser at `level` levels above the nesting limit, in a stream that lies on a part of the
source and nests no deeper than `height`, with fewer than `room` tokens ahead. -/
structure Fit (source : Span) (tokens : List Lexeme) (height level room : ℕ) (s : Parser) : Prop where
  stream : s.tokens = tokens
  laid : ∃ whole : Span, whole.Inside source ∧ Laid whole tokens
  low : heights tokens ≤ height
  level : s.depth + level = Lex.nestingDepthLimit
  room : tokens.length - s.pos < room

variable {source : Span} {tokens : List Lexeme} {height level room : ℕ} {s t : Parser}

namespace Fit

theorem moves (h : Fit source tokens height level room s) (hm : Moves s t) :
    Fit source tokens height level room t := by
  refine ⟨hm.tokens.trans h.stream, h.laid, h.low, by rw [hm.depth]; exact h.level, ?_⟩
  have hroom := h.room
  have hpos := hm.pos
  omega

theorem narrow (h : Fit source tokens height level (room + 1) s) (hm : Moves s t)
    (hlt : s.pos < t.pos) : Fit source tokens height level room t := by
  obtain ⟨hstream, hlaid, hlow, hlevel, _⟩ := h.moves hm
  have hroom := h.room
  have hinside := t.inside
  rw [hstream] at hinside
  exact ⟨hstream, hlaid, hlow, hlevel, by omega⟩

theorem inside (h : Fit source tokens height level room s) : s.pos ≤ tokens.length := by
  have hinside := s.inside
  rwa [h.stream] at hinside

theorem span_eq (h : Fit source tokens height level room s) (hlt : s.pos < tokens.length) :
    s.span = coverAt tokens s.pos (s.pos + 1) := by
  simp [Parser.span, h.stream, coverAt, startAt, stopAt, List.getElem?_eq_getElem hlt]

theorem prevByteSpan_eq (h : Fit source tokens height level room s) (hpos : 0 < s.pos) :
    s.prevByteSpan = coverAt tokens (s.pos - 1) s.pos := by
  have hlt : s.pos - 1 < tokens.length := by
    have hinside := h.inside
    omega
  simp [Parser.prevByteSpan, h.stream, coverAt, startAt, stopAt, List.getElem?_eq_getElem hlt]

theorem join_eq (h : Fit source tokens height level room s) (hm : Moves s t) (hlt : s.pos < t.pos) :
    s.span.join t.prevByteSpan = coverAt tokens s.pos t.pos := by
  have hinside := (h.moves hm).inside
  obtain ⟨whole, _, hlaid⟩ := h.laid
  rw [h.span_eq (by omega), (h.moves hm).prevByteSpan_eq (by omega)]
  simp only [coverAt, Span.join, Nat.add_sub_cancel]
  rw [Nat.min_eq_left (hlaid.startAt_le (by omega) (by omega)),
    Nat.max_eq_right (hlaid.stopAt_le (by omega) (by omega))]

theorem held_span (h : Fit source tokens height level room s) (hlt : s.pos < tokens.length) :
    Held tokens s.pos (s.pos + 1) s.span.Inside := by
  intro i j hi hj hlen
  obtain ⟨whole, _, hlaid⟩ := h.laid
  rw [h.span_eq hlt]
  exact hlaid.cover_inside hi (Nat.lt_succ_self _) hj hlen

theorem span_inside (h : Fit source tokens height level room s) (hne : tokens ≠ []) :
    s.span.Inside source := by
  obtain ⟨whole, hwhole, hlaid⟩ := h.laid
  by_cases hlt : s.pos < tokens.length
  · rw [h.span_eq hlt]
    exact (hlaid.cover_whole (Nat.lt_succ_self _) hlt).trans hwhole
  · have hnone : tokens[s.pos]? = none := List.getElem?_eq_none_iff.mpr (by omega)
    have hlast : tokens.getLast? = some (tokens.getLast hne) := List.getLast?_eq_some_getLast hne
    simp only [Parser.span, h.stream, hnone, hlast]
    exact (hlaid.inside _ (List.getLast_mem hne)).trans hwhole

theorem mem_of_peek (h : Fit source tokens height level room s) {token : Token} (hp : s.peek = token)
    (hlt : s.pos < tokens.length) : .mk token s.span ∈ tokens := by
  have hlt' : s.pos < s.tokens.length := by rwa [h.stream]
  have hpeek := Parser.peek_eq hlt'
  have hspan : s.span = s.tokens[s.pos].span := by
    simp [Parser.span, List.getElem?_eq_getElem hlt']
  have hmem : s.tokens[s.pos] ∈ s.tokens := List.getElem_mem hlt'
  have hmk : Lexeme.mk token s.span = s.tokens[s.pos] := by
    rw [hspan, ← hp, hpeek, Lexeme.mk_eta]
  rw [hmk, ← h.stream]
  exact hmem

end Fit

/-! ## What productions read -/

def TreeAt (source : Span) (tokens : List Lexeme) (s : Parser) (tree : Ast) (t : Parser) : Prop :=
  s.pos < t.pos ∧ Held tokens s.pos t.pos fun o => Placed source .borrowed o tree

def ChildAt (source : Span) (tokens : List Lexeme) (s : Parser) (child : Spanned Ast) (t : Parser) :
    Prop :=
  s.pos < t.pos ∧ Held tokens s.pos t.pos fun o => PlacedIn source .borrowed o child

theorem ChildAt.tree {child : Spanned Ast} (h : ChildAt source tokens s child t) :
    TreeAt source tokens s child.item t := by
  refine ⟨h.1, ?_⟩
  intro i j hi hj hlen
  obtain ⟨hinside, hplaced⟩ := h.2 i j hi hj hlen
  exact hplaced.mono hinside.start hinside.stop

/-- What is no tree, with the span it was read at. -/
def MarkAt (tokens : List Lexeme) (s : Parser) (span : Span) (t : Parser) : Prop :=
  s.pos < t.pos ∧ Held tokens s.pos t.pos span.Inside

namespace Parse
variable {α : Type}

theorem reads_captureSpan (hfit : Fit source tokens height level room s) {x : Parse α}
    {Q : α → Parser → Prop} (h : Reads x s fun a t => s.pos < t.pos ∧ Q a t) :
    Reads (captureSpan x) s fun r t =>
      s.pos < t.pos ∧ r.1 = coverAt tokens s.pos t.pos ∧ Q r.2 t := by
  apply Reads.get
  apply h.bind
  intro a t hm hq
  exact .get (.pure ⟨hq.1, hfit.join_eq hm hq.1, hq.2⟩)

theorem reads_capture (hfit : Fit source tokens height level room s) {x : Parse Ast}
    (h : Reads x s (TreeAt source tokens s)) :
    Reads (captureSpan x) s fun r t => ChildAt source tokens s ⟨r.1, r.2⟩ t := by
  apply (reads_captureSpan hfit h).mono
  intro r t hm hr
  obtain ⟨hlt, hspan, hheld⟩ := hr
  refine ⟨hlt, ?_⟩
  intro i j hi hj hlen
  obtain ⟨whole, _, hlaid⟩ := hfit.laid
  constructor
  · rw [hspan]
    exact hlaid.cover_inside hi hlt hj hlen
  · have hplaced := hheld s.pos t.pos (le_refl _) (le_refl _) (hfit.moves hm).inside
    simp only [hspan]
    exact hplaced

theorem reads_captureMark (hfit : Fit source tokens height level room s) {x : Parse α}
    {Q : α → Parser → Prop} (h : Reads x s fun a t => s.pos < t.pos ∧ Q a t) :
    Reads (captureSpan x) s fun r t => MarkAt tokens s r.1 t ∧ Q r.2 t := by
  apply (reads_captureSpan hfit h).mono
  intro r t hm hr
  obtain ⟨hlt, hspan, hq⟩ := hr
  refine ⟨⟨hlt, ?_⟩, hq⟩
  intro i j hi hj hlen
  obtain ⟨whole, _, hlaid⟩ := hfit.laid
  rw [hspan]
  exact hlaid.cover_inside hi hlt hj hlen

theorem reads_spanned (hfit : Fit source tokens height level room s) {x : Parse Ast}
    (h : Reads x s (TreeAt source tokens s)) :
    Reads (spanned x) s (ChildAt source tokens s) := by
  apply (reads_capture hfit h).bind
  intro r t _ hr
  exact .pure hr

end Parse

/-! ## Trees without children -/

/-- A node with nothing below it. -/
def Ast.Bare (tree : Ast) : Prop := tree.marks = [] ∧ tree.spanned = [] ∧ tree.bare = []

theorem Placed.of_bare {outer : Span} {tree : Ast} (h : tree.Bare) :
    Placed source .borrowed outer tree := by
  obtain ⟨hmarks, hspanned, hbare⟩ := h
  apply Placed.of_children
  · simp [hmarks]
  · simp [hspanned]
  · simp [hbare]

theorem treeAt_bare {tree : Ast} (h : tree.Bare) (hlt : s.pos < t.pos) :
    TreeAt source tokens s tree t := ⟨hlt, fun _ _ _ _ _ => .of_bare h⟩

end Ral.Syntax
