import Ral.Channel.Frame

/-! # A stream of frames, read to its end

However its bytes arrive, a stream of whole frames reads as those frames and then a
clean end. Cut inside a frame, or failing, it ends in an error after the whole ones.
-/

namespace Ral.Channel

variable {T : Type} {codec : Codec T}

theorem fuse_len (e : Encoded) : fuse (ofLeBytes (leBytes e.len)) = .ok e.len := by
  have small : e.len < 2 ^ 32 := Nat.lt_of_le_of_lt e.fused (by decide)
  rw [ofLeBytes_leBytes small, fuse, if_pos e.fused]

/-- A frame that arrived whole. -/
theorem readBody_whole {s : Stream} {e : Encoded} {rest : List UInt8}
    (h : s.delivered = e.wire ++ rest) :
    ∃ s', readBody s = (.ok (some e.body), s') ∧ s'.delivered = rest ∧ s'.fails = s.fails := by
  have long : 4 ≤ s.delivered.length := by
    rw [h, Encoded.wire, List.length_append, List.length_append, length_leBytes]
    omega
  obtain ⟨s₁, hread, hrest, hfails⟩ := (readLength_spec [] s (by simp)).1 (by simpa using long)
  have front : s.delivered.take 4 = leBytes e.len := by
    rw [h, Encoded.wire, List.append_assoc, List.take_left' (length_leBytes _)]
  have back : s₁.delivered = e.body ++ rest := by
    rw [hrest, h, Encoded.wire, List.append_assoc]
    exact List.drop_left' (length_leBytes _)
  have enough : e.len ≤ s₁.delivered.length := by
    rw [back, List.length_append, e.is_len]
    omega
  obtain ⟨s₂, hbody, hleft, hfails'⟩ := (readExact_spec e.len [] s₁).1 enough
  refine ⟨s₂, ?_, ?_, hfails'.trans hfails⟩
  · have body : s₁.delivered.take e.len = e.body := by rw [back, List.take_left' e.is_len]
    rw [List.nil_append] at hread hbody
    rw [List.length_nil, Nat.sub_zero, front] at hread
    rw [body] at hbody
    simp only [readBody, hread, fuse_len, hbody]
  · rw [hleft, back, List.drop_left' e.is_len]

/-- What a stream cut inside a frame, or at its start, reads as. -/
theorem readBody_cut {s : Stream} {e : Encoded} {lost : List UInt8} (h : s.delivered ++ lost = e.wire)
    (cut : lost ≠ []) :
    (s.delivered = [] ∧ s.fails = false ∧ ∃ s', readBody s = (.ok none, s')) ∨
      ((s.delivered ≠ [] ∨ s.fails = true) ∧ ∃ err s', readBody s = (.error err, s')) := by
  by_cases short : s.delivered.length < 4
  · obtain ⟨s₁, hread⟩ := (readLength_spec [] s (by simp)).2 (by simpa using short)
    rw [List.nil_append] at hread
    by_cases hf : s.fails
    · rw [if_pos hf] at hread
      exact Or.inr ⟨Or.inr hf, broken, s₁, by simp only [readBody, hread]⟩
    · rw [if_neg hf] at hread
      by_cases hn : s.delivered = []
      · rw [if_pos hn] at hread
        exact Or.inl ⟨hn, by simpa using hf, s₁, by simp only [readBody, hread]⟩
      · rw [if_neg hn] at hread
        exact Or.inr ⟨Or.inl hn, partialLength, s₁, by simp only [readBody, hread]⟩
  · have long : 4 ≤ s.delivered.length := by omega
    obtain ⟨s₁, hread, hrest, hfails⟩ := (readLength_spec [] s (by simp)).1 (by simpa using long)
    have front : s.delivered.take 4 = leBytes e.len := by
      have := congrArg (List.take 4) h
      rwa [List.take_append_of_le_length long, Encoded.wire, List.take_left' (length_leBytes _)] at this
    have missing : s₁.delivered.length < e.len := by
      have total := congrArg List.length h
      have lost_pos : 0 < lost.length := List.length_pos_of_ne_nil cut
      rw [List.length_append, Encoded.wire, List.length_append, length_leBytes, e.is_len] at total
      rw [hrest, List.length_drop, List.length_nil]
      omega
    obtain ⟨s₂, hbody⟩ := (readExact_spec e.len [] s₁).2 missing
    rw [List.nil_append, List.length_nil, Nat.sub_zero, front] at hread
    refine Or.inr ⟨Or.inl (List.ne_nil_of_length_pos (by omega)), ?_⟩
    by_cases hf : s₁.fails
    · rw [if_pos hf] at hbody
      exact ⟨broken, s₂, by simp only [readBody, hread, fuse_len, hbody]⟩
    · rw [if_neg hf] at hbody
      exact ⟨shortBody, s₂, by simp only [readBody, hread, fuse_len, hbody]⟩

theorem readBody_oversize {s : Stream} (long : 4 ≤ s.delivered.length)
    (past : maxFrameLen < ofLeBytes (s.delivered.take 4)) :
    ∃ s', readBody s = (.error (oversize (ofLeBytes (s.delivered.take 4))), s') ∧
      s'.delivered = s.delivered.drop 4 := by
  obtain ⟨s₁, hread, hrest, _⟩ := (readLength_spec [] s (by simp)).1 (by simpa using long)
  refine ⟨s₁, ?_, hrest⟩
  rw [List.nil_append, List.length_nil, Nat.sub_zero] at hread
  simp only [readBody, hread, fuse, if_neg (Nat.not_le_of_lt past)]

/-! ## To the end of the stream -/

/-- How reading ended. -/
inductive Ending
  | clean
  | failed (e : IoError)
  deriving DecidableEq

theorem weight_readLength {got bs : List UInt8} {s s' : Stream} (less : got.length < 4)
    (h : readLength got s = (.ok (some bs), s')) : s'.weight < s.weight := by
  fun_induction readLength got s with
  | case1 got s more s₁ h₁ ih =>
    have := Stream.weight_read (Nat.sub_pos_of_lt more) h₁ (by simp)
    have := ih more h
    omega
  | case2 got s more s₁ h₁ => simp at h
  | case3 s s₁ more h₁ => simp at h
  | case4 got s more s₁ h₁ some => simp at h
  | case5 got s more piece s₁ h₁ ih =>
    have first := Stream.weight_read (Nat.sub_pos_of_lt more) h₁ (by simp)
    by_cases again : (got ++ piece).length < 4
    · have := ih again h
      omega
    · rw [readLength, dif_neg again] at h
      simp only [Prod.mk.injEq] at h
      rw [← h.2]
      exact first
  | case6 got s full => exact absurd less full

theorem weight_readExact {want : ℕ} {got body : List UInt8} {s s' : Stream}
    (h : readExact want got s = (.ok body, s')) : s'.weight ≤ s.weight := by
  fun_induction readExact want got s with
  | case1 want got s more s₁ h₁ ih =>
    have := Stream.weight_read more h₁ (by simp)
    have := ih h
    omega
  | case2 want got s more s₁ h₁ => simp at h
  | case3 want got s more s₁ h₁ => simp at h
  | case4 want got s more piece s₁ h₁ ih =>
    have := Stream.weight_read more h₁ (by simp)
    have := ih h
    omega
  | case5 want got s full =>
    simp only [Prod.mk.injEq] at h
    exact Nat.le_of_eq (congrArg Stream.weight h.2.symm)

theorem weight_readBody {body : List UInt8} {s s' : Stream} (h : readBody s = (.ok (some body), s')) :
    s'.weight < s.weight := by
  unfold readBody at h
  split at h
  · simp at h
  · simp at h
  · next bytes s₁ hlen =>
      have first := weight_readLength (by simp) hlen
      split at h
      · simp at h
      · next len hfuse =>
          split at h
          · simp at h
          · next body' s₂ hbody =>
              have second := weight_readExact hbody
              simp only [Prod.mk.injEq, Except.ok.injEq, Option.some.injEq] at h
              rw [← h.2]
              omega

theorem weight_readFrame {v : T} {s s' : Stream} (h : readFrame codec s = (.ok (some v), s')) :
    s'.weight < s.weight := by
  unfold readFrame at h
  split at h
  · simp at h
  · simp at h
  · next body s₁ hbody =>
      simp only [Prod.mk.injEq] at h
      rw [← h.2]
      exact weight_readBody hbody

variable (codec) in
def receive (s : Stream) : List T × Ending :=
  match _h : readFrame codec s with
  | (.error e, _) => ([], .failed e)
  | (.ok none, _) => ([], .clean)
  | (.ok (some v), s') =>
    let rest := receive s'
    (v :: rest.1, rest.2)
termination_by s.weight
decreasing_by exact weight_readFrame _h

theorem receive_error {s s' : Stream} {e : IoError} (h : readFrame codec s = (.error e, s')) :
    receive codec s = ([], .failed e) := by
  rw [receive]
  split <;> simp_all

theorem receive_none {s s' : Stream} (h : readFrame codec s = (.ok none, s')) :
    receive codec s = ([], .clean) := by
  rw [receive]
  split <;> simp_all

theorem receive_some {s s' : Stream} {v : T} (h : readFrame codec s = (.ok (some v), s')) :
    receive codec s = (v :: (receive codec s').1, (receive codec s').2) := by
  rw [receive]
  split <;> simp_all

def Encodes (codec : Codec T) (vs : List T) (es : List Encoded) : Prop :=
  List.Forall₂ (fun v e => encode codec v = .ok e) vs es

theorem receive_whole {s : Stream} {v : T} {e : Encoded} {rest : List UInt8} (enc : encode codec v = .ok e)
    (h : s.delivered = e.wire ++ rest) :
    ∃ s', s'.delivered = rest ∧ s'.fails = s.fails ∧
      receive codec s = (v :: (receive codec s').1, (receive codec s').2) := by
  obtain ⟨s', hbody, hrest, hfails⟩ := readBody_whole h
  refine ⟨s', hrest, hfails, receive_some ?_⟩
  simp only [readFrame, hbody, decodeBody, encode_eq_ok enc]
  rfl

variable (codec) in
theorem receive_cut {s : Stream} {e : Encoded} {lost : List UInt8} (h : s.delivered ++ lost = e.wire)
    (cut : lost ≠ []) :
    (receive codec s).1 = [] ∧ ((receive codec s).2 = .clean ↔ s.delivered = [] ∧ s.fails = false) := by
  rcases readBody_cut h cut with ⟨hn, hf, s', hbody⟩ | ⟨some, err, s', hbody⟩
  · have hread : readFrame codec s = (.ok none, s') := by simp only [readFrame, hbody]
    rw [receive_none hread]
    simp [hn, hf]
  · have hread : readFrame codec s = (.error err, s') := by simp only [readFrame, hbody]
    rw [receive_error hread]
    rcases some with some | some
    · simp [some]
    · simp [some]

variable (codec) in
theorem receive_nothing {s : Stream} (h : s.delivered = []) :
    (receive codec s).1 = [] ∧ ((receive codec s).2 = .clean ↔ s.fails = false) := by
  obtain ⟨s', hread⟩ := (readLength_spec [] s (by simp)).2 (by simp [h])
  rw [h, List.append_nil, if_pos rfl] at hread
  by_cases hf : s.fails
  · rw [if_pos hf] at hread
    have hframe : readFrame codec s = (.error broken, s') := by simp only [readFrame, readBody, hread]
    rw [receive_error hframe]
    simp [hf]
  · rw [if_neg hf] at hread
    have hframe : readFrame codec s = (.ok none, s') := by simp only [readFrame, readBody, hread]
    rw [receive_none hframe]
    simp [hf]

@[simp] theorem wires_nil : wires [] = [] := rfl

@[simp] theorem wires_cons (e : Encoded) (es : List Encoded) : wires (e :: es) = e.wire ++ wires es := rfl

/-- A stream that stops anywhere inside a sequence of frames reads as the whole ones
in it, and ends clean exactly when it stops between two. -/
theorem receive_prefix {vs : List T} {es : List Encoded} (enc : Encodes codec vs es) {s : Stream}
    (h : s.delivered <+: wires es) :
    ∃ k ≤ es.length, (receive codec s).1 = vs.take k ∧ wires (es.take k) <+: s.delivered ∧
      (∀ e, es[k]? = some e → ¬ wires (es.take k) ++ e.wire <+: s.delivered) ∧
      ((receive codec s).2 = .clean ↔ s.delivered = wires (es.take k) ∧ s.fails = false) := by
  induction enc generalizing s with
  | nil =>
    have empty : s.delivered = [] := List.prefix_nil.mp h
    have read := receive_nothing codec empty
    refine ⟨0, Nat.le_refl _, read.1, by simp, by simp, ?_⟩
    simpa [empty] using read.2
  | @cons v e vs es enc tail ih =>
    by_cases whole : e.wire <+: s.delivered
    · obtain ⟨rest, hrest⟩ := whole
      obtain ⟨s', hleft, hfails, hread⟩ := receive_whole enc hrest.symm
      have next : s'.delivered <+: wires es := by
        rw [← hrest, wires_cons, List.prefix_append_right_inj] at h
        rwa [hleft]
      obtain ⟨k, bound, frames, front, most, clean⟩ := ih next
      refine ⟨k + 1, Nat.succ_le_succ bound, ?_, ?_, ?_, ?_⟩
      · rw [hread, frames, List.take_succ_cons]
      · rw [List.take_succ_cons, wires_cons, ← hrest, List.prefix_append_right_inj, ← hleft]
        exact front
      · intro e' he'
        rw [List.getElem?_cons_succ] at he'
        rw [List.take_succ_cons, wires_cons, ← hrest, List.append_assoc, List.prefix_append_right_inj,
          ← hleft]
        exact most e' he'
      · rw [hread, List.take_succ_cons, wires_cons, ← hrest, List.append_right_inj, ← hleft, ← hfails]
        exact clean
    · obtain ⟨lost, hlost⟩ : s.delivered <+: e.wire := by
        rw [wires_cons] at h
        rcases List.prefix_or_prefix_of_prefix h (List.prefix_append e.wire (wires es)) with inside | past
        · exact inside
        · exact absurd past whole
      have cut : lost ≠ [] := by
        rintro rfl
        rw [List.append_nil] at hlost
        exact whole (hlost ▸ List.prefix_refl _)
      have read := receive_cut codec hlost cut
      refine ⟨0, Nat.zero_le _, read.1, by simp, ?_, by simpa using read.2⟩
      intro e' he'
      rw [List.getElem?_cons_zero, Option.some.injEq] at he'
      subst he'
      simpa using whole

end Ral.Channel
