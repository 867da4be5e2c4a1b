import Ral.Syntax.CommandReads

/-! # Readings of statements

Control flow, pipelines and chains, blocks and expressions: what they read is placed, a curried
lambda's wrapper statements at the span they borrow.
-/

namespace Ral.Syntax
open Ir (Redirects)

variable {source : Span} {tokens : List Lexeme} {height level room : ℕ} {s t : Parser} {d : Descent}

def AllHeld (source : Span) (tokens : List Lexeme) (a b : ℕ) (children : List (Spanned Ast)) : Prop :=
  ∀ child ∈ children, Held tokens a b fun o => PlacedIn source .borrowed o child

theorem AllHeld.widen {a b a' b' : ℕ} {children : List (Spanned Ast)} (h : AllHeld source tokens a b children)
    (ha : a' ≤ a) (hb : b ≤ b') : AllHeld source tokens a' b' children :=
  fun child hmem => (h child hmem).widen ha hb

theorem AllHeld.snoc {a b : ℕ} {children : List (Spanned Ast)} {child : Spanned Ast}
    (h : AllHeld source tokens a b children) (hchild : Held tokens a b fun o => PlacedIn source .borrowed o child) :
    AllHeld source tokens a b (children ++ [child]) := by
  intro x hmem
  rcases List.mem_append.mp hmem with hmem | hmem
  · exact h x hmem
  · rw [List.mem_singleton.mp hmem]
    exact hchild

theorem AllHeld.single {a b : ℕ} {child : Spanned Ast}
    (hchild : Held tokens a b fun o => PlacedIn source .borrowed o child) :
    AllHeld source tokens a b [child] := by
  intro x hmem
  rw [List.mem_singleton.mp hmem]
  exact hchild

theorem held_item {a b : ℕ} {child : Spanned Ast}
    (h : Held tokens a b fun o => PlacedIn source .borrowed o child) :
    Held tokens a b fun o => Placed source .borrowed o child.item := by
  intro i j hi hj hlen
  obtain ⟨hinside, hplaced⟩ := h i j hi hj hlen
  exact hplaced.mono hinside.start hinside.stop

theorem treeAt_children {tree : Ast} {children : List (Spanned Ast)} (hlt : s.pos < t.pos)
    (hchildren : AllHeld source tokens s.pos t.pos children) (hmarks : tree.marks = [])
    (hspanned : tree.spanned = children) (hbare : tree.bare = []) : TreeAt source tokens s tree t := by
  apply treeAt_node hlt
  · simp [hmarks]
  · rw [hspanned]
    exact hchildren
  · simp [hbare]

namespace Parse

/-! ## Control flow -/

structure ArmHeld (source : Span) (tokens : List Lexeme) (a b : ℕ) (arm : CaseArm Ast) : Prop where
  tag : Held tokens a b arm.tag.span.Inside
  body : Held tokens a b fun o => PlacedIn source .borrowed o arm.body

theorem ArmHeld.widen {a b a' b' : ℕ} {arm : CaseArm Ast} (h : ArmHeld source tokens a b arm)
    (ha : a' ≤ a) (hb : b ≤ b') : ArmHeld source tokens a' b' arm :=
  ⟨h.tag.widen ha hb, h.body.widen ha hb⟩

theorem reads_parseArmBody (hd : Sound source height level room d) (label : String)
    (hfit : Fit source tokens height level room s) :
    Reads (parseArmBody d label) s (ChildAt source tokens s) := by
  apply Reads.get
  apply Reads.ite
  · intro _
    exact reads_spanned hfit (hd.arm label hfit)
  · intro _
    exact reads_spanned hfit (reads_parseAtom hd hfit)

theorem reads_parseCaseArm (hd : Sound source height level room d)
    (hfit : Fit source tokens height level room s) :
    Reads (parseCaseArm d) s fun arm t => s.pos < t.pos ∧ ArmHeld source tokens s.pos t.pos arm := by
  apply Reads.get
  split
  · exact .fail
  · next label hp =>
    have hlt : s.pos < s.tokens.length := Parser.lt_of_peek (by simp [hp])
    apply reads_advance.bind
    intro _ t ht hpos
    have hpos := hpos hlt
    apply Reads.get
    apply Reads.ite
    · intro _
      exact .fail
    · intro _
      apply reads_advance.bind
      intro _ u hu _
      have hle := hu.pos
      apply (reads_parseArmBody hd label ((hfit.moves ht).moves hu)).bind
      intro body v _ hbody
      have hlt' := hbody.1
      refine .pure ⟨by omega, ?_, hbody.2.widen (by omega) (le_refl _)⟩
      exact (hfit.held_span (by rwa [← hfit.stream])).widen (le_refl _) (by omega)
  · exact .fail

theorem reads_parseCase (hd : Sound source height level room d)
    (hfit : Fit source tokens height level room s) :
    Reads (parseCase d) s (TreeAt source tokens s) := by
  apply reads_advance.bind
  intro _ t ht _
  apply reads_skipNewlines.bind
  intro _ u hu _
  have hfit' := (hfit.moves ht).moves hu
  apply (reads_capture hfit' (reads_parseAtom hd hfit')).bind
  intro scrutinee v hv hscrutinee
  apply reads_skipNewlines.bind
  intro _ w hw _
  apply reads_requireContinuation.bind
  intro _ x _ he
  subst he
  apply Reads.get
  apply Reads.ite
  · intro _
    exact .fail
  · intro _
    apply reads_advance.bind
    intro _ y hy _
    apply Reads.get
    apply Reads.ite
    · intro _
      exact .fail
    · intro _
      have hfit'' := ((hfit'.moves hv).moves hw).moves hy
      apply Reads.bind (Q := fun arms z => y.pos < z.pos ∧ ∀ arm ∈ arms, ArmHeld source tokens y.pos z.pos arm)
      · apply reads_parseBracketItems fun arms z => ∀ arm ∈ arms, ArmHeld source tokens y.pos z.pos arm
        · intro arms p q _ hq h arm hmem
          exact (h arm hmem).widen (le_refl _) hq.pos
        · simp
        · intro arms p hp h
          apply (reads_parseCaseArm hd (hfit''.moves hp)).bind
          intro arm q hq harm
          apply Reads.ite
          · intro _
            exact .fail
          · intro _
            refine .pure ⟨harm.1, ?_⟩
            intro a hmem
            rcases List.mem_append.mp hmem with hmem | hmem
            · exact (h a hmem).widen (le_refl _) hq.pos
            · rw [List.mem_singleton.mp hmem]
              exact harm.2.widen hp.pos (le_refl _)
      · intro arms z hz h
        have hle := ht.pos
        have hle₁ := hu.pos
        have hle₂ := hv.pos
        have hle₃ := hw.pos
        have hle₄ := hy.pos
        have hlt := h.1
        refine .pure (treeAt_node (by omega) ?_ ?_ (by simp [Ast.bare]))
        · intro span hmem
          obtain ⟨arm, harm, rfl⟩ := List.mem_map.mp hmem
          exact (h.2 arm harm).tag.widen (by omega) (le_refl _)
        · intro child hmem
          rcases List.mem_cons.mp hmem with rfl | hmem
          · exact hscrutinee.2.widen (by omega) (by omega)
          · obtain ⟨arm, harm, rfl⟩ := List.mem_map.mp hmem
            exact (h.2 arm harm).body.widen (by omega) (le_refl _)

def BranchHeld (source : Span) (tokens : List Lexeme) (a b : ℕ) (branch : IfBranch Ast) : Prop :=
  AllHeld source tokens a b [branch.cond, branch.body]

theorem reads_parseIfBranch (hd : Sound source height level room d)
    (hfit : Fit source tokens height level room s) :
    Reads (parseIfBranch d) s fun branch t =>
      s.pos < t.pos ∧ BranchHeld source tokens s.pos t.pos branch := by
  apply (reads_capture hfit (reads_parseAtom hd hfit)).bind
  intro cond t ht hcond
  apply reads_skipNewlines.bind
  intro _ u hu _
  apply reads_requireContinuation.bind
  intro _ v _ he
  subst he
  have hfit' := (hfit.moves ht).moves hu
  apply (reads_capture hfit' (reads_parseAtom hd hfit')).bind
  intro body w hw hbody
  have hlt := hcond.1
  have hle := hu.pos
  have hle' := hw.pos
  refine .pure ⟨by omega, ?_⟩
  intro child hmem
  rcases List.mem_cons.mp hmem with rfl | hmem
  · exact hcond.2.widen (le_refl _) (by omega)
  · rw [List.mem_singleton.mp hmem]
    exact hbody.2.widen (by omega) (le_refl _)

def BranchesHeld (source : Span) (tokens : List Lexeme) (a b : ℕ) (branches : List (IfBranch Ast)) : Prop :=
  ∀ branch ∈ branches, BranchHeld source tokens a b branch

theorem BranchesHeld.widen {a b a' b' : ℕ} {branches : List (IfBranch Ast)}
    (h : BranchesHeld source tokens a b branches) (ha : a' ≤ a) (hb : b ≤ b') :
    BranchesHeld source tokens a' b' branches :=
  fun branch hmem => AllHeld.widen (h branch hmem) ha hb

/-- One turn of an `if`'s loop, from `a` on. -/
theorem reads_parseIfTail (hd : Sound source height level room d)
    (hfit : Fit source tokens height level room s) {a : ℕ} (ha : a ≤ s.pos)
    {branches : List (IfBranch Ast)} (hbranches : BranchesHeld source tokens a s.pos branches) :
    Reads (parseIfTail d branches) s
      (TurnOk (fun branches t => BranchesHeld source tokens a t.pos branches)
        (fun r t => BranchesHeld source tokens a t.pos r.1 ∧
          AllHeld source tokens a t.pos r.2.toList) s) := by
  apply Reads.get
  apply reads_skipNewlines.bind_since
  intro _ t ht _
  have hfit' := hfit.moves ht
  show ReadsSince s (if _ then _ else if _ then _ else if _ then _ else _) t _
  have keyword {word : String} (hword : t.peek.asPlainWord = some word) : t.pos < t.tokens.length := by
    apply Parser.lt_of_peek
    intro he
    rw [he] at hword
    cases hword
  split
  · next hword =>
    apply Reads.since _ ht
    apply reads_advance.bind
    intro _ u hu hpos
    have hpos := hpos (keyword hword)
    apply (reads_endUnit hd (hfit'.moves hu) _).bind
    intro _ v _ he
    subst he
    apply reads_skipNewlines.bind
    intro _ w hw _
    apply reads_requireContinuation.bind
    intro _ x _ he
    subst he
    apply (reads_parseIfBranch hd ((hfit'.moves hu).moves hw)).bind
    intro branch y hy hbranch
    have hle := ht.pos
    have hle' := hw.pos
    have hlt := hbranch.1
    refine .pure ⟨by omega, ?_⟩
    intro b hmem
    rcases List.mem_append.mp hmem with hmem | hmem
    · exact AllHeld.widen (hbranches b hmem) (le_refl _) (by omega)
    · rw [List.mem_singleton.mp hmem]
      exact AllHeld.widen hbranch.2 (by omega) (le_refl _)
  · split
    · next hword =>
      apply Reads.since _ ht
      apply reads_advance.bind
      intro _ u hu hpos
      apply (reads_endUnit hd (hfit'.moves hu) _).bind
      intro _ v _ he
      subst he
      apply reads_skipNewlines.bind
      intro _ w hw _
      apply reads_requireContinuation.bind
      intro _ x _ he
      subst he
      have hfit'' := (hfit'.moves hu).moves hw
      apply (reads_capture hfit'' (reads_parseAtom hd hfit'')).bind
      intro body y hy hbody
      have hle := ht.pos
      have hle₁ := hu.pos
      have hle₂ := hw.pos
      have hle₃ := hy.pos
      refine .pure ⟨hbranches.widen (le_refl _) (by omega), ?_⟩
      exact AllHeld.single (hbody.2.widen (by omega) (le_refl _))
    · split
      · exact Reads.since .fail ht
      · apply readsSince_rewind ht
        intro u hu hpos
        refine ⟨hbranches.widen (le_refl _) (by omega), ?_⟩
        intro child hmem
        cases hmem

theorem reads_parseIf (hd : Sound source height level room d)
    (hfit : Fit source tokens height level room s) :
    Reads (parseIf d) s (TreeAt source tokens s) := by
  apply reads_advance.bind
  intro _ t ht _
  apply reads_skipNewlines.bind
  intro _ u hu _
  apply reads_requireContinuation.bind
  intro _ v _ he
  subst he
  have hfit' := (hfit.moves ht).moves hu
  have hle := ht.pos
  have hle' := hu.pos
  apply (reads_parseIfBranch hd hfit').bind
  intro branch v hv hbranch
  apply Reads.bind (Q := fun r w => BranchesHeld source tokens s.pos w.pos r.1 ∧
    AllHeld source tokens s.pos w.pos r.2.toList)
  · apply reads_loop fun branches w => BranchesHeld source tokens s.pos w.pos branches
    · intro b hmem
      rw [List.mem_singleton.mp hmem]
      exact AllHeld.widen hbranch.2 (by omega) (le_refl _)
    · intro branches w hw h
      have hle'' := hv.pos
      have hle₃ := hw.pos
      exact reads_parseIfTail hd ((hfit'.moves hv).moves hw) (by omega) h
  · intro r w hw h
    obtain ⟨branches, else'⟩ := r
    have hlt := hbranch.1
    have hle'' := hw.pos
    refine .pure (treeAt_node (by omega) (by simp [Ast.marks]) ?_ (by simp [Ast.bare]))
    intro child hmem
    simp only [Ast.spanned, List.mem_append, List.mem_flatMap] at hmem
    rcases hmem with ⟨b, hb, hmem⟩ | hmem
    · exact h.1 b hb child hmem
    · exact h.2 child hmem

theorem reads_parseReturnStage (hd : Sound source height level room d)
    (hfit : Fit source tokens height level room s) (hlt : s.pos < s.tokens.length) :
    Reads (parseReturnStage d) s (TreeAt source tokens s) := by
  apply reads_advance.bind
  intro _ t ht hpos
  have hpos := hpos hlt
  apply Reads.get
  apply Reads.ite
  · intro _
    exact .pure (treeAt_bare ⟨rfl, rfl, rfl⟩ (by omega))
  · intro _
    split
    · exact .fail
    · apply (reads_capture (hfit.moves ht) (reads_parseAtom hd (hfit.moves ht))).bind
      intro value u _ hvalue
      apply Reads.get
      apply Reads.ite
      · intro _
        exact .fail
      · intro _
        exact .pure (treeAt_single rfl rfl rfl hvalue ht.pos (le_refl _))

/-! ## Stages -/

theorem reads_trailed (hd : Sound source height level room d) {parse : Parse Ast}
    (hfit : Fit source tokens height level room s) (h : Reads parse s (TreeAt source tokens s)) :
    Reads (trailed d parse) s (FormAt source tokens s) := by
  apply h.bind
  intro form t ht hform
  apply (reads_collectTrailingRedirects hd (hfit.moves ht)).bind
  intro redirects u hu hredirects
  exact .pure ⟨hform.widen (le_refl _) hu.pos, hredirects.widen ht.pos (le_refl _)⟩

theorem reads_stageForm (hd : Sound source height level room d)
    (hfit : Fit source tokens height level room s) :
    Reads (stageForm d s.peek.asPlainWord) s (FormAt source tokens s) := by
  unfold stageForm
  split
  · exact reads_parseCommand hd hfit
  · next word hword =>
    have hlt : s.pos < s.tokens.length := by
      apply Parser.lt_of_peek
      intro he
      rw [he] at hword
      cases hword
    apply Reads.ite
    · intro _
      exact reads_failAt
    intro _
    apply Reads.ite
    · intro _
      exact reads_failAt
    intro _
    apply Reads.ite
    · intro _
      exact reads_trailed hd hfit (reads_parseReturnStage hd hfit hlt)
    intro _
    apply Reads.ite
    · intro _
      exact reads_trailed hd hfit (reads_parseIf hd hfit)
    intro _
    apply Reads.ite
    · intro _
      exact reads_trailed hd hfit (reads_parseCase hd hfit)
    intro _
    apply Reads.ite
    · intro hname
      exact reads_trailed hd hfit (reads_parseControlOp hd hname hfit)
    · intro _
      exact reads_parseCommand hd hfit

theorem reads_parseStage (hd : Sound source height level room d)
    (hfit : Fit source tokens height level room s) :
    Reads (parseStage d) s (TreeAt source tokens s) := by
  apply Reads.get
  dsimp only
  apply Reads.ite
  · intro _
    apply reads_advance.bind
    intro _ t ht _
    apply (reads_touching hd (hfit.moves ht) _).bind
    intro e u _ _
    exact .fail
  · intro _
    apply (reads_captureSpan (Q := fun form t => FormAt source tokens s form t) hfit
      ((reads_stageForm hd hfit).mono fun form t _ h => ⟨h.1.1, h⟩)).bind
    intro form t ht h
    obtain ⟨hlt, hspan, htree, hredirects⟩ := h
    apply Reads.get
    apply Reads.ite
    · intro _
      apply Reads.pure
      split
      · exact htree
      · obtain ⟨whole, _, hlaid⟩ := hfit.laid
        apply treeAt_node hlt (by simp [Ast.marks])
        · intro child hmem
          rw [List.mem_singleton.mp hmem]
          intro i j hi hj hlen
          refine ⟨?_, ?_⟩
          · simp only [hspan]
            exact hlaid.cover_inside hi hlt hj hlen
          · have hplaced := htree.2 s.pos t.pos (le_refl _) (le_refl _) (hfit.moves ht).inside
            simpa only [hspan] using hplaced
        · intro child hmem i j hi hj hlen
          exact hredirects i j hi hj hlen child hmem
    · intro _
      exact .fail

theorem treeAt_arms {arms : List (Spanned Ast)} {node : List (Spanned Ast) → Ast} (hlt : s.pos < t.pos)
    (h : AllHeld source tokens s.pos t.pos arms) (hmarks : ∀ arms, (node arms).marks = [])
    (hspanned : ∀ arms, (node arms).spanned = arms) (hbare : ∀ arms, (node arms).bare = []) :
    Reads (match arms with
      | [arm] => pure arm.item
      | arms => pure (node arms)) t fun tree u => u = t ∧ TreeAt source tokens s tree t := by
  split
  · next arm => exact .pure ⟨rfl, hlt, held_item (h arm (List.mem_singleton.mpr rfl))⟩
  · exact .pure ⟨rfl, treeAt_children hlt h (hmarks _) (hspanned _) (hbare _)⟩

theorem reads_parsePipeline (hd : Sound source height level room d)
    (hfit : Fit source tokens height level room s) :
    Reads (parsePipeline d) s (TreeAt source tokens s) := by
  apply (reads_spanned hfit (reads_parseStage hd hfit)).bind
  intro first t ht hfirst
  have hlt := hfirst.1
  apply Reads.bind (Q := fun stages u => AllHeld source tokens s.pos u.pos stages)
  · apply reads_loop fun stages u => AllHeld source tokens s.pos u.pos stages
    · exact AllHeld.single hfirst.2
    · intro stages u hu h
      apply (reads_eatContinuation rfl).bind
      intro more v hv heat
      apply Reads.ite
      · intro hmore
        have hlt' := heat.1 hmore
        apply Reads.get
        apply Reads.ite
        · intro _
          exact .fail
        · intro _
          apply reads_requireContinuation.bind
          intro _ w _ he
          subst he
          have hfit' := ((hfit.moves ht).moves hu).moves hv
          apply (reads_spanned hfit' (reads_parseStage hd hfit')).bind
          intro stage x hx hstage
          have hle := hu.pos
          have hle' := hx.pos
          exact .pure ⟨by omega, (h.widen (le_refl _) (by omega)).snoc (hstage.2.widen (by omega) (le_refl _))⟩
      · intro hmore
        have hpos := heat.2 (by simpa using hmore)
        exact .pure (h.widen (le_refl _) (by omega))
  · intro stages u hu h
    have hle := hu.pos
    exact (treeAt_arms (by omega) h (fun _ => rfl) (fun _ => rfl) fun _ => rfl).mono
      fun tree v _ h => h.1 ▸ h.2

theorem reads_parseChain (hd : Sound source height level room d)
    (hfit : Fit source tokens height level room s) :
    Reads (parseChain d) s (TreeAt source tokens s) := by
  apply (reads_spanned hfit (reads_parsePipeline hd hfit)).bind
  intro first t ht hfirst
  have hlt := hfirst.1
  apply Reads.bind (Q := fun arms u => AllHeld source tokens s.pos u.pos arms)
  · apply reads_loop fun arms u => AllHeld source tokens s.pos u.pos arms
    · exact AllHeld.single hfirst.2
    · intro arms u hu h
      apply (reads_eatContinuation rfl).bind
      intro more v hv heat
      apply Reads.ite
      · intro hmore
        have hlt' := heat.1 hmore
        apply reads_requireContinuation.bind
        intro _ w _ he
        subst he
        have hfit' := ((hfit.moves ht).moves hu).moves hv
        apply (reads_spanned hfit' (reads_parsePipeline hd hfit')).bind
        intro arm x hx harm
        have hle := hu.pos
        have hle' := hx.pos
        exact .pure ⟨by omega, (h.widen (le_refl _) (by omega)).snoc (harm.2.widen (by omega) (le_refl _))⟩
      · intro hmore
        have hpos := heat.2 (by simpa using hmore)
        exact .pure (h.widen (le_refl _) (by omega))
  · intro arms u hu h
    have hle := hu.pos
    exact (treeAt_arms (by omega) h (fun _ => rfl) (fun _ => rfl) fun _ => rfl).mono
      fun tree v _ h => h.1 ▸ h.2

/-! ## Statements -/

theorem reads_parseBindingOpt (hd : Sound source height level room d)
    (hfit : Fit source tokens height level room s) :
    Reads (parseBindingOpt d) s fun binding t =>
      (∀ tree, binding = some tree → TreeAt source tokens s tree t) ∧ (binding = none → t = s) := by
  apply Reads.get
  apply Reads.ite
  · intro _
    exact .pure ⟨nofun, fun _ => rfl⟩
  · intro _
    apply reads_advance.bind
    intro _ t ht _
    apply (reads_parseBinder hd (hfit.moves ht)).bind
    intro pattern u hu hpattern
    apply Reads.get
    apply Reads.ite
    · intro _
      apply reads_advance.bind
      intro _ v hv _
      apply reads_skipNewlines.bind
      intro _ w hw _
      apply Reads.get
      apply Reads.ite
      · intro _
        exact .fail
      · intro _
        have hfit' := (((hfit.moves ht).moves hu).moves hv).moves hw
        apply (reads_capture hfit' (reads_parseChain hd hfit')).bind
        intro value x hx hvalue
        have hle := ht.pos
        have hlt := hpattern.1
        have hle₁ := hv.pos
        have hle₂ := hw.pos
        have hlt' := hvalue.1
        refine .pure ⟨?_, nofun⟩
        intro tree he
        cases he
        apply treeAt_node (by omega)
        · intro span hmem
          rw [List.mem_singleton.mp hmem]
          exact hpattern.2.widen (by omega) (by omega)
        · intro child hmem
          rw [List.mem_singleton.mp hmem]
          exact hvalue.2.widen (by omega) (le_refl _)
        · simp [Ast.bare]
    · intro _
      exact .fail

theorem reads_parseStmt (hd : Sound source height level room d)
    (hfit : Fit source tokens height level room s) :
    Reads (parseStmt d) s (TreeAt source tokens s) := by
  apply (reads_parseBindingOpt hd hfit).bind
  intro binding t _ h
  split
  · next tree => exact .pure (h.1 tree rfl)
  · have he := h.2 rfl
    subst he
    exact reads_parseChain hd hfit

theorem reads_parseProgram (hd : Sound source height level room d)
    (hfit : Fit source tokens height level room s) :
    Reads (parseProgram d) s fun stmts t => AllHeld source tokens s.pos t.pos stmts := by
  apply reads_skipSeparators.bind
  intro _ t ht _
  have hle := ht.pos
  apply reads_loop fun stmts u => AllHeld source tokens s.pos u.pos stmts
  · intro child hmem
    cases hmem
  · intro stmts u hu h
    apply Reads.get
    apply Reads.ite
    · intro _
      exact .pure h
    · intro _
      have hfit' := (hfit.moves ht).moves hu
      apply (reads_spanned hfit' (reads_parseStmt hd hfit')).bind
      intro stmt v hv hstmt
      apply reads_skipSeparators.bind
      intro _ w hw _
      have hlt := hstmt.1
      have hle' := hu.pos
      have hle₁ := hw.pos
      exact .pure ⟨by omega,
        (h.widen (le_refl _) (by omega)).snoc (hstmt.2.widen (by omega) (by omega))⟩

/-! ## Blocks -/

theorem reads_parseUnit : Reads parseUnit s (TreeAt source tokens s) := by
  apply (reads_expect rfl).bind
  intro _ t _ hpos
  apply (reads_eat rfl).bind
  intro closed u hu _
  have hle := hu.pos
  apply Reads.ite
  · intro _
    exact .pure (treeAt_bare ⟨rfl, rfl, rfl⟩ (by omega))
  · intro _
    exact reads_failAt

def ParamsHeld (tokens : List Lexeme) (a b : ℕ) (params : List (Spanned Ir.Pattern)) : Prop :=
  ∀ param ∈ params, Held tokens a b param.span.Inside

theorem reads_parseParams (hd : Sound source height level room d)
    (hfit : Fit source tokens height level room s) :
    Reads (parseParams d) s fun params t => ParamsHeld tokens s.pos t.pos params := by
  apply Reads.bind (Q := fun params t => ParamsHeld tokens s.pos t.pos params)
  · apply reads_loop fun params t => ParamsHeld tokens s.pos t.pos params
    · intro param hmem
      cases hmem
    · intro params t ht h
      apply Reads.get
      apply Reads.ite
      · intro _
        exact .pure h
      · intro _
        apply Reads.ite
        · intro _
          exact .fail
        · intro _
          apply (reads_parseBinder hd (hfit.moves ht)).bind
          intro param u hu hparam
          refine .pure ⟨hparam.1, ?_⟩
          intro p hmem
          rcases List.mem_append.mp hmem with hmem | hmem
          · exact (h p hmem).widen (le_refl _) hu.pos
          · rw [List.mem_singleton.mp hmem]
            exact hparam.2.widen ht.pos (le_refl _)
  · intro params t ht h
    apply (reads_expect rfl).bind
    intro _ u hu _
    refine .pure ?_
    intro p hmem
    exact (h p hmem).widen (le_refl _) hu.pos

/-- A curried lambda's wrappers carry the span of the first statement in what they wrap. -/
theorem placed_curry {outer span : Span} {body : List Stmt} (hspan : span.Inside source)
    (hfirst : ∀ first ∈ body.head?, first.span = span)
    (hbody : ∀ stmt ∈ body, PlacedIn source .borrowed outer stmt) {param : Spanned Ir.Pattern}
    (hparam : param.span.Inside outer) {params : List (Spanned Ir.Pattern)}
    (hparams : ∀ p ∈ params, p.span.Inside outer) :
    Placed source .borrowed outer (curry span body param params) := by
  induction params generalizing param with
  | nil =>
    apply Placed.of_children
    · intro sp hmem
      rw [List.mem_singleton.mp hmem]
      exact hparam
    · exact hbody
    · simp [curry, Ast.bare]
  | cons next params ih =>
    have hinner := ih (hparams next List.mem_cons_self) fun p hmem => hparams p (List.mem_cons_of_mem _ hmem)
    cases params with
    | nil => exact .curried rfl hparam hspan hfirst hinner
    | cons after params =>
      apply Placed.curried rfl hparam hspan _ hinner
      intro first hmem
      cases hmem
      rfl

theorem reads_parseBlock (hd : Sound source height level room d)
    (hfit : Fit source tokens height level room s) :
    Reads (parseBlock d) s (TreeAt source tokens s) := by
  apply (reads_expect rfl).bind
  intro _ t ht hpos
  have hfit' := hfit.moves ht
  apply Reads.get
  apply Reads.ite
  · intro _
    apply reads_advance.bind
    intro _ u _ _
    exact reads_failAt
  · intro _
    apply (reads_eat rfl).bind
    intro lambda u hu _
    have hle := hu.pos
    apply Reads.ite
    · intro _
      apply (reads_parseParams hd (hfit'.moves hu)).bind
      intro params v hv hparams
      cases params with
      | nil => exact reads_failAt
      | cons param params =>
        have hfit'' := (hfit'.moves hu).moves hv
        apply (reads_parseProgram hd hfit'').bind
        intro body w hw hbody
        apply (reads_expect rfl).bind
        intro _ x hx hpos'
        apply Reads.get
        have hle₁ := hv.pos
        have hle₂ := hw.pos
        refine .pure ⟨by omega, ?_⟩
        intro i j hi hj hlen
        have hstmts : ∀ stmt ∈ body, PlacedIn source .borrowed (coverAt tokens i j) stmt :=
          fun stmt hmem => hbody stmt hmem i j (by omega) (by omega) hlen
        apply placed_curry _ _ hstmts (hparams param List.mem_cons_self i j (by omega) (by omega) hlen)
        · intro p hmem
          exact hparams p (List.mem_cons_of_mem _ hmem) i j (by omega) (by omega) hlen
        · cases body with
          | nil =>
            have hne : tokens ≠ [] := by
              intro he
              rw [he] at hlen
              simp at hlen
              omega
            exact ((hfit''.moves hw).moves hx).span_inside hne
          | cons first rest =>
            obtain ⟨whole, hwhole, hlaid⟩ := hfit.laid
            have hfirst := (hstmts first List.mem_cons_self).inside
            exact (hfirst.trans (hlaid.cover_whole (by omega) hlen)).trans hwhole
        · cases body with
          | nil => simp
          | cons first rest => simp
    · intro _
      apply (reads_parseProgram hd (hfit'.moves hu)).bind
      intro body v hv hbody
      apply (reads_expect rfl).bind
      intro _ w hw hpos'
      have hle₁ := hv.pos
      exact .pure (treeAt_children (by omega) (hbody.widen (by omega) (by omega)) rfl rfl rfl)

theorem reads_caseArmLambda (hd : Sound source height level room d) {label : String}
    (hfit : Fit source tokens height level room s) :
    Reads (caseArmLambda d label) s (TreeAt source tokens s) := by
  apply reads_advance.bind
  intro _ t ht _
  apply Reads.get
  apply Reads.ite
  · intro _
    exact .fail
  · intro _
    apply reads_advance.bind
    intro _ u hu _
    have hfit' := (hfit.moves ht).moves hu
    apply (reads_parseBinder hd hfit').bind
    intro param v hv hparam
    apply Reads.get
    apply Reads.ite
    · intro _
      exact .fail
    · intro _
      apply reads_advance.bind
      intro _ w hw _
      apply (reads_parseProgram hd ((hfit'.moves hv).moves hw)).bind
      intro body x hx hbody
      apply (reads_expect rfl).bind
      intro _ y hy _
      have hle := ht.pos
      have hle₁ := hu.pos
      have hlt := hparam.1
      have hle₂ := hw.pos
      have hle₃ := hx.pos
      have hle₄ := hy.pos
      refine .pure (treeAt_node (by omega) ?_ (hbody.widen (by omega) (by omega)) (by simp [Ast.bare]))
      intro span hmem
      rw [List.mem_singleton.mp hmem]
      exact hparam.2.widen (by omega) (by omega)

theorem reads_primaryBody (hd : Sound source height level room d)
    (hfit : Fit source tokens height level room s) :
    Reads (primaryBody d) s (TreeAt source tokens s) := by
  apply Reads.get
  split
  · exact reads_parseBlock hd hfit
  · exact reads_parseCollection hd hfit
  · exact reads_parseUnit
  · exact reads_parseWord hd hfit

/-! ## Expressions -/

theorem binaryNode_children {assign : ParseError} {left right : Spanned Ast} {op : Operator} {node : Ast}
    (h : binaryNode assign left right op = .ok node) :
    node.marks = [] ∧ node.spanned = [left, right] ∧ node.bare = [] := by
  unfold binaryNode at h
  split at h
  · cases h
    exact ⟨rfl, rfl, rfl⟩
  · cases h
    exact ⟨rfl, rfl, rfl⟩
  · cases h
    exact ⟨rfl, rfl, rfl⟩
  · obtain ⟨_, _, h⟩ := Fallible.bind_eq_ok.mp h
    obtain ⟨_, _, h⟩ := Fallible.bind_eq_ok.mp h
    cases h
    exact ⟨rfl, rfl, rfl⟩
  · cases h

theorem precedence_le (op : Operator) : precedence op ≤ 5 := by
  unfold precedence
  split <;> omega

theorem reads_parseExprPrec (hd : Sound source height level room d) {ladder minPrec : ℕ}
    (hladder : 7 ≤ ladder + minPrec) (hmin : minPrec ≤ 6)
    (hfit : Fit source tokens height level room s) :
    Reads (parseExprPrec d ladder minPrec) s (ChildAt source tokens s) := by
  induction ladder generalizing minPrec s with
  | zero => omega
  | succ ladder ih =>
    rw [parseExprPrec]
    apply Reads.get
    apply (reads_capture hfit (hd.operand hfit)).bind
    intro first t ht hfirst
    apply (reads_loop (ChildAt source tokens s) hfirst _)
    intro left u hu hleft
    apply Reads.get
    split
    · exact .fail
    · next op _ _ =>
      apply Reads.ite
      · intro _
        exact .pure hleft
      · intro hprec
        apply reads_advance.bind
        intro _ v hv _
        apply Reads.get
        apply Reads.ite
        · intro _
          exact .fail
        · intro _
          have hle := precedence_le op
          have hfit' := ((hfit.moves ht).moves hu).moves hv
          apply (ih (by omega) (by omega) hfit').bind
          intro right w hw hright
          apply Reads.get
          apply Reads.bind (Q := fun node x => x = w ∧ node.marks = [] ∧ node.spanned = [left, right] ∧
            node.bare = [])
          · apply Reads.ofExcept
            exact fun node h => ⟨rfl, binaryNode_children h⟩
          · intro node x _ h
            obtain ⟨rfl, hmarks, hspanned, hbare⟩ := h
            have hlt := hleft.1
            have hle₁ := ht.pos
            have hle₂ := hu.pos
            have hle₃ := hv.pos
            have hlt' := hright.1
            have hm := ((ht.trans hu).trans hv).trans hw
            have hjoin := hfit.join_eq hm (by omega)
            have htree : TreeAt source tokens s node x := by
              apply treeAt_children (by omega) _ hmarks hspanned hbare
              intro child hmem
              rcases List.mem_cons.mp hmem with rfl | hmem
              · exact hleft.2.widen (le_refl _) (by omega)
              · rw [List.mem_singleton.mp hmem]
                exact hright.2.widen (by omega) (le_refl _)
            refine .pure ⟨by omega, by omega, ?_⟩
            intro i j hi hj hlen
            obtain ⟨whole, _, hlaid⟩ := hfit.laid
            simp only [hjoin]
            exact ⟨hlaid.cover_inside hi (by omega) hj hlen,
              htree.2 _ _ (le_refl _) (le_refl _) (hfit.moves hm).inside⟩
    · exact .pure hleft

theorem reads_parseExpr (hd : Sound source height level room d)
    (hfit : Fit source tokens height level room s) :
    Reads (parseExpr d) s (ChildAt source tokens s) := reads_parseExprPrec hd (by omega) (by omega) hfit

theorem reads_operandAfter {at' : Span} {name : String} :
    Reads (operandAfter at' name) s fun _ t => t = s := by
  apply Reads.get
  apply Reads.ite
  · intro _
    exact .fail
  · intro _
    exact .pure rfl

theorem reads_operandBody (hd : Sound source height level room d)
    (hfit : Fit source tokens height level room s) :
    Reads (operandBody d) s (TreeAt source tokens s) := by
  apply Reads.get
  apply Reads.ite
  · intro _
    apply Reads.bind (Q := fun group t => TreeAt source tokens s group.2.item t)
    · apply (reads_captureSpan (Q := fun expr t => Held tokens s.pos t.pos fun o =>
        Placed source .borrowed o expr.item) hfit _).mono
      · intro group t _ h
        exact ⟨h.1, h.2.2⟩
      · apply reads_advance.bind
        intro _ t ht _
        apply (reads_parseExpr hd (hfit.moves ht)).bind
        intro expr u _ hexpr
        apply (reads_expect rfl).bind
        intro _ v hv hpos
        have hle := ht.pos
        have hlt := hexpr.1
        exact .pure ⟨by omega, (held_item hexpr.2).widen hle hv.pos⟩
    · intro group t ht h
      apply (reads_endUnit hd (hfit.moves ht) _).bind
      intro _ u _ he
      subst he
      exact .pure h
  intro _
  apply Reads.ite
  · intro _
    exact reads_parseAtom hd hfit
  intro _
  split
  · apply reads_advance.bind
    intro _ t ht _
    apply reads_operandAfter.bind
    intro _ u _ he
    subst he
    apply (reads_capture (hfit.moves ht) (hd.operand (hfit.moves ht))).bind
    intro inner v hv hinner
    apply Reads.bind (Q := fun _ w => w = v)
    · exact .ofExcept fun _ _ => rfl
    · intro _ w _ he
      subst he
      exact .pure (treeAt_single rfl rfl rfl hinner ht.pos (le_refl _))
  · exact .fail
  · exact .fail
  · apply Reads.ite
    · intro _
      apply reads_advance.bind
      intro _ t ht _
      apply (reads_endUnit hd (hfit.moves ht) _).bind
      intro _ u _ he
      subst he
      apply reads_operandAfter.bind
      intro _ v _ he
      subst he
      apply (reads_capture (hfit.moves ht) (hd.operand (hfit.moves ht))).bind
      intro inner w hw hinner
      exact .pure (treeAt_single rfl rfl rfl hinner ht.pos (le_refl _))
    · intro _
      exact reads_parseAtom hd hfit
  · exact reads_parseAtom hd hfit

end Parse

end Ral.Syntax
