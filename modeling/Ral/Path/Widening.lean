import Mathlib.Data.List.Infix
import Ral.Path.Trace

/-! # An exclusion reads no less than it says

What an exclusion holds it holds further down, what it holds exactly it holds within, and
a name it holds as stored it holds under every spelling. So each wider reading of an
exclusion refuses what the narrower one does.
-/

namespace Ral.Path

/-- `u` goes on from where `t` is: more objects opened, more names spelled. -/
structure Trace.Extends (t u : Trace) : Prop where
  root : u.root = t.root
  steps : t.spineIds <+: u.spineIds
  names : t.real.names <+: u.real.names

section Readings
variable [Host]

/-! ## By position -/

theorem firmlinkToggle_canon (ho : Host.os = .macos) {n : Name} (hn : n ∈ firmNames) (rest : List Name) :
    firmlinkToggle (privateName :: n :: rest) = some (n :: rest) := by
  have hsome : (firmlinkToggle (privateName :: n :: rest)).isSome := by
    refine List.findSome?_isSome_iff.mpr ⟨([n], [privateName, n]), ?_, ?_⟩
    · simp only [firmlinks, ho, List.mem_map]
      exact ⟨n, hn, rfl⟩
    · have hs : stripPrefix [privateName, n] (privateName :: n :: rest) = some rest :=
        stripPrefix_append [privateName, n] rest
      rw [Option.isSome_or, hs]
      simp
  obtain ⟨p', hp'⟩ := Option.isSome_iff_exists.mp hsome
  obtain ⟨-, n', hn', rest', ⟨he, -⟩ | ⟨he, rfl⟩⟩ := firmlinkToggle_spec hp'
  · exact (privateName_not_firm ((List.cons.inj he).1 ▸ hn')).elim
  · rw [hp', (List.cons.inj he).2]

theorem firmlinkToggle_append {p p' : List Name} (h : firmlinkToggle p = some p') (more : List Name) :
    firmlinkToggle (p ++ more) = some (p' ++ more) := by
  obtain ⟨ho, n, hn, rest, ⟨rfl, rfl⟩ | ⟨rfl, rfl⟩⟩ := firmlinkToggle_spec h
  · exact firmlinkToggle_firm ho hn (rest ++ more)
  · exact firmlinkToggle_canon ho hn (rest ++ more)

theorem pathAliases_append {p p' : List Name} (h : p' ∈ pathAliases p) (more : List Name) :
    p' ++ more ∈ pathAliases (p ++ more) := by
  rcases List.mem_cons.mp h with rfl | h
  · exact List.mem_cons_self ..
  · have htoggle : firmlinkToggle p = some p' := by simpa using h
    exact List.mem_cons_of_mem _ (by simp [firmlinkToggle_append htoggle more])

theorem pathWithin_refl (p : List Name) (identity : Identity) : pathWithin p p identity = true := by
  simp [pathWithin, pathAliases, withinOne]

theorem pathWithin_mono {p u pre : List Name} {identity : Identity} (hp : p <+: u)
    (h : pathWithin p pre identity = true) : pathWithin u pre identity = true := by
  obtain ⟨more, rfl⟩ := hp
  simp only [pathWithin, List.any_eq_true] at h ⊢
  obtain ⟨p', hp', q, hq, hwithin⟩ := h
  refine ⟨p' ++ more, pathAliases_append hp' more, q, hq, ?_⟩
  simp only [withinOne, List.map_append, List.isPrefixOf_iff_prefix] at hwithin ⊢
  exact hwithin.trans (List.prefix_append _ _)

theorem firmlinkToggle_symm {p p' : List Name} (h : firmlinkToggle p = some p') : firmlinkToggle p' = some p := by
  obtain ⟨ho, n, hn, rest, ⟨rfl, rfl⟩ | ⟨rfl, rfl⟩⟩ := firmlinkToggle_spec h
  · exact firmlinkToggle_canon ho hn rest
  · exact firmlinkToggle_firm ho hn rest

theorem pathAliases_alias {p q r : List Name} (hq : q ∈ pathAliases p) (hr : r ∈ pathAliases p) : r ∈ pathAliases q := by
  rcases List.mem_cons.mp hq with rfl | hq
  · exact hr
  · have htoggle : firmlinkToggle p = some q := by simpa using hq
    rcases List.mem_cons.mp hr with rfl | hr
    · exact List.mem_cons_of_mem _ (by simp [firmlinkToggle_symm htoggle])
    · have hsame : r = q := by simpa [htoggle, eq_comm] using hr
      exact hsame ▸ List.mem_cons_self ..

theorem pathWithin_trans {p q pre : List Name} {identity : Identity} (hpq : pathWithin p q .stored = true)
    (hq : pathWithin q pre identity = true) : pathWithin p pre identity = true := by
  simp only [pathWithin, List.any_eq_true] at hpq hq ⊢
  obtain ⟨p', hp', q', hq', hwithin⟩ := hpq
  obtain ⟨a, ha, b, hb, hab⟩ := hq
  simp only [withinOne, key, List.map_id, List.isPrefixOf_iff_prefix] at hwithin
  obtain ⟨more, rfl⟩ := hwithin
  have hlonger : a ++ more ∈ pathAliases (q' ++ more) := pathAliases_append (pathAliases_alias hq' ha) more
  have hself : p ∈ pathAliases (q' ++ more) := pathAliases_alias hp' (List.mem_cons_self ..)
  refine ⟨a ++ more, pathAliases_alias hself hlonger, b, hb, ?_⟩
  simp only [withinOne, List.map_append, List.isPrefixOf_iff_prefix] at hab ⊢
  exact hab.trans (List.prefix_append _ _)

theorem pathWithin_folded {p pre : List Name} (h : pathWithin p pre .stored = true) :
    pathWithin p pre .collision = true := by
  simp only [pathWithin, List.any_eq_true] at h ⊢
  obtain ⟨p', hp', q, hq, hwithin⟩ := h
  refine ⟨p', hp', q, hq, ?_⟩
  simp only [withinOne, key, List.map_id, List.isPrefixOf_iff_prefix] at hwithin ⊢
  exact hwithin.map encodedCollisionKey

namespace RealPath

theorem holds_folded {self path : RealPath} {depth : Depth} (h : self.holds path depth .stored = true) :
    self.holds path depth .collision = true := by
  simp only [holds, Bool.and_eq_true, Bool.or_eq_true] at h ⊢
  exact ⟨pathWithin_folded h.1, h.2.imp_right pathWithin_folded⟩

theorem matchedBy_isSome {self path : RealPath} {depth : Depth} :
    (self.matchedBy path depth).isSome = true ↔ self.holds path depth .collision = true := by
  unfold matchedBy
  split
  · next h => simp [holds_folded h]
  · split <;> next h => simp [h]

theorem matchedBy_within {self path : RealPath} (h : (self.matchedBy path .exact).isSome = true) :
    (self.matchedBy path .within).isSome = true := by
  rw [matchedBy_isSome] at h ⊢
  simp only [holds, Bool.and_eq_true] at h ⊢
  exact ⟨h.1, rfl⟩

theorem matchedBy_mono {self path further : RealPath} (hp : path.components <+: further.components)
    (h : (self.matchedBy path .within).isSome = true) : (self.matchedBy further .within).isSome = true := by
  rw [matchedBy_isSome] at h ⊢
  simp only [holds, Bool.and_eq_true] at h ⊢
  exact ⟨pathWithin_mono hp h.1, rfl⟩

theorem matchedBy_beneath {self path further : RealPath} (hp : path.contains further = true)
    (h : (self.matchedBy path .within).isSome = true) : (self.matchedBy further .within).isSome = true := by
  rw [matchedBy_isSome] at h ⊢
  simp only [holds, Bool.and_eq_true] at h ⊢
  exact ⟨pathWithin_trans hp h.1, rfl⟩

end RealPath

/-! ## By identity -/

omit [Host] in
theorem zip_append_of_le {α β : Type} {rule : List α} {access : List β} (h : rule.length ≤ access.length)
    (more : List β) : rule.zip (access ++ more) = rule.zip access := by
  induction rule generalizing access with
  | nil => rfl
  | cons r rule ih =>
    cases access with
    | nil => simp at h
    | cons a access =>
      have hle : rule.length ≤ access.length := by simpa using h
      simp [ih hle]

theorem namesFit_within {rule access : List Name} (h : namesFit rule access .exact = true) :
    namesFit rule access .within = true := by
  simp only [namesFit, Bool.and_eq_true, decide_eq_true_eq] at h ⊢
  exact ⟨le_of_eq h.1, h.2⟩

theorem namesFit_mono {rule access further : List Name} (hp : access <+: further)
    (h : namesFit rule access .within = true) : namesFit rule further .within = true := by
  obtain ⟨more, rfl⟩ := hp
  simp only [namesFit, Bool.and_eq_true, decide_eq_true_eq] at h ⊢
  rw [zip_append_of_le h.1]
  refine ⟨?_, h.2⟩
  rw [List.length_append]
  omega

namespace Passed

theorem reaches_iff {rule access : Passed} {depth : Depth} : rule.reaches access depth = true ↔
    ∃ e ∈ rule.ids.zipIdx.drop 1, ∃ o ∈ access.ids.zipIdx,
      o.1 = e.1 ∧ namesFit (rule.names.drop e.2) (access.names.drop o.2) depth = true := by
  simp [reaches]

theorem reaches_within {rule access : Passed} (h : rule.reaches access .exact = true) :
    rule.reaches access .within = true := by
  rw [reaches_iff] at h ⊢
  obtain ⟨e, he, o, ho, hid, hfit⟩ := h
  exact ⟨e, he, o, ho, hid, namesFit_within hfit⟩

theorem reaches_mono {rule access further : Passed} (hids : access.ids <+: further.ids)
    (hnames : access.names <+: further.names) (h : rule.reaches access .within = true) :
    rule.reaches further .within = true := by
  rw [reaches_iff] at h ⊢
  obtain ⟨e, he, o, ho, hid, hfit⟩ := h
  obtain ⟨more, hmore⟩ := hids
  have ho' : o ∈ further.ids.zipIdx := by
    rw [← hmore, List.zipIdx_append]
    exact List.mem_append_left _ ho
  exact ⟨e, he, o, ho', hid, namesFit_mono (hnames.drop o.2) hfit⟩

end Passed

/-! ## Exclusions -/

theorem Hold.matched_isSome {hold : Hold} {s : Subject} {depth : Depth} :
    (hold.matched s depth).isSome = true ↔ ∃ position, s.position? = some position ∧
      ((hold.trace.real.matchedBy position depth).isSome = true ∨
        ∃ access, s.passed? = some access ∧ (Passed.of hold.trace).reaches access depth = true) := by
  unfold Hold.matched
  cases hposition : s.position? with
  | none => simp
  | some position =>
    cases hpassed : s.passed? with
    | none => simp
    | some access =>
      cases hreaches : (Passed.of hold.trace).reaches access depth <;> simp [hreaches]

namespace Excluded

theorem matched_isSome {e : Excluded} {s : Subject} {depth : Depth} :
    (e.matched s depth).isSome = true ↔ ∃ hold ∈ e.holds, (hold.matched s depth).isSome = true := by
  rw [← Option.ne_none_iff_isSome, Excluded.matched, ne_eq, List.min?_eq_none_iff, ← ne_eq,
    ← List.length_pos_iff, List.length_pos_iff_exists_mem]
  simp only [List.mem_filterMap, Option.isSome_iff_exists]
  constructor
  · rintro ⟨m, hold, hmem, hm⟩
    exact ⟨hold, hmem, m, hm⟩
  · rintro ⟨hold, hmem, m, hm⟩
    exact ⟨m, hold, hmem, hm⟩

theorem matched_within {e : Excluded} {s : Subject} (h : (e.matched s .exact).isSome = true) :
    (e.matched s .within).isSome = true := by
  rw [matched_isSome] at h ⊢
  obtain ⟨hold, hmem, hm⟩ := h
  refine ⟨hold, hmem, ?_⟩
  rw [Hold.matched_isSome] at hm ⊢
  obtain ⟨position, hposition, hby⟩ := hm
  refine ⟨position, hposition, ?_⟩
  rcases hby with hname | ⟨access, hpassed, hreaches⟩
  · exact Or.inl (RealPath.matchedBy_within hname)
  · exact Or.inr ⟨access, hpassed, Passed.reaches_within hreaches⟩

theorem matched_mono {e : Excluded} {t u : Trace} (htu : t.Extends u)
    (h : (e.matched (.access t) .within).isSome = true) : (e.matched (.access u) .within).isSome = true := by
  rw [matched_isSome] at h ⊢
  obtain ⟨hold, hmem, hm⟩ := h
  refine ⟨hold, hmem, ?_⟩
  rw [Hold.matched_isSome] at hm ⊢
  obtain ⟨position, hposition, hby⟩ := hm
  cases hposition
  refine ⟨u.real, rfl, ?_⟩
  rcases hby with hname | ⟨access, hpassed, hreaches⟩
  · left
    apply RealPath.matchedBy_mono _ hname
    show t.root ++ t.real.names <+: u.root ++ u.real.names
    rw [htu.root]
    exact (List.prefix_append_right_inj t.root).mpr htu.names
  · cases hpassed
    exact Or.inr ⟨Passed.of u, rfl, Passed.reaches_mono htu.steps htu.names hreaches⟩

theorem matched_beneath {e : Excluded} {q : RealPath} {s : Subject} (hs : s.beneath q = true)
    (h : (e.matched (.position q) .within).isSome = true) : (e.matched s .within).isSome = true := by
  rw [matched_isSome] at h ⊢
  obtain ⟨hold, hmem, hm⟩ := h
  refine ⟨hold, hmem, ?_⟩
  rw [Hold.matched_isSome] at hm ⊢
  obtain ⟨_, hq, hby⟩ := hm
  cases hq
  rcases hby with hname | ⟨_, hpassed, -⟩
  · cases hposition : s.position? with
    | none => simp [Subject.beneath, hposition] at hs
    | some p =>
      have hp : q.contains p = true := by simpa [Subject.beneath, hposition] using hs
      exact ⟨p, rfl, .inl (RealPath.matchedBy_beneath hp hname)⟩
  · cases hpassed

theorem matched_own (e : Excluded) (depth : Depth) : (e.matched (.access e.named.trace) depth).isSome = true := by
  rw [matched_isSome]
  refine ⟨e.named, List.mem_cons_self .., ?_⟩
  rw [Hold.matched_isSome]
  refine ⟨e.named.trace.real, rfl, Or.inl ?_⟩
  rw [RealPath.matchedBy_isSome]
  simp [RealPath.holds, pathWithin_refl]

/-- Downward closed, and no wider reading refuses less. -/
theorem matched_widens (e : Excluded) :
    (∀ t u : Trace, t.Extends u → (e.matched (.access t) .within).isSome = true →
      (e.matched (.access u) .within).isSome = true) ∧
    (∀ s, (e.matched s .exact).isSome = true → (e.matched s .within).isSome = true) ∧
    ∀ hold ∈ e.holds, ∀ path depth, hold.trace.real.holds path depth .stored = true →
      hold.trace.real.holds path depth .collision = true :=
  ⟨fun _ _ htu => matched_mono htu, fun _ => matched_within, fun _ _ _ _ => RealPath.holds_folded⟩

end Excluded

end Readings

/-! ## A directory and what is in it -/

/-- Folds ASCII alone. -/
@[reducible] def folding : Host := ⟨.linux, id⟩

def directory (names : List String) (ino : ℕ) : Trace where
  root := []
  rootId := ⟨0, 0⟩
  steps := names.map fun n => ⟨Name.ofStr n, ⟨0, ino⟩, .dir⟩
  tail := []
  passed := []
  walkable := by
    constructor
    · intro s hs
      obtain ⟨n, -, rfl⟩ := List.mem_map.mp (List.mem_of_mem_dropLast hs)
      rfl
    · exact Or.inl rfl

theorem matched_widens_below : ∃ e : Excluded,
    (@Excluded.matched folding e (.access (directory ["keys"] 7)) .within).isSome = true ∧
      (@Excluded.matched folding e (.access (directory ["keys", "old"] 7)) .within).isSome = true := by
  have hfirst : (@Excluded.matched folding ⟨⟨directory ["keys"] 7⟩, none⟩
      (.access (directory ["keys"] 7)) .within).isSome = true := @Excluded.matched_own folding _ _
  have hextends : (directory ["keys"] 7).Extends (directory ["keys", "old"] 7) :=
    ⟨rfl, ⟨[⟨0, 7⟩], rfl⟩, ⟨[Name.ofStr "old"], rfl⟩⟩
  exact ⟨_, hfirst, (@Excluded.matched_widens folding ⟨⟨directory ["keys"] 7⟩, none⟩).1 _ _ hextends hfirst⟩

end Ral.Path
