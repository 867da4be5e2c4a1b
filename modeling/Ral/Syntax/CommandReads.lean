import Ral.Syntax.BracketReads

/-! # Readings of commands

Redirects, heads and arguments, and a control operator's operands are placed as they are read.
-/

namespace Ral.Syntax
open Ir (Redirects)

variable {source : Span} {tokens : List Lexeme} {height level room : ℕ} {s t : Parser} {d : Descent}

/-! ## Redirects -/

def Redirect.operands {α : Type} : Redirect α → List α
  | .stdin (.file word) => [word]
  | .stdin (.here word) => [word]
  | .stdout _ word => [word]
  | .stderr _ word => [word]
  | .stderrToStdout => []

def RedirectsIn (source outer : Span) (redirects : Redirects Ast) : Prop :=
  ∀ word ∈ redirectOperands redirects, Placed source .borrowed outer word

theorem operands_redirectWord {α : Type} (op : RedirectOp) (word : α) :
    (redirectWord op word).operands = [word] := by
  cases op with
  | read => rfl
  | hereString => rfl
  | stdout mode => rfl
  | stderr mode => cases mode <;> rfl

/-- A bound redirect adds its own operand. -/
theorem mem_bindRedirect {α : Type} {into into' : Redirects α} {redirect : Redirect α}
    (h : bindRedirect into redirect = .ok into') {word : α} (hmem : word ∈ redirectOperands into') :
    word ∈ redirectOperands into ∨ word ∈ redirect.operands := by
  obtain ⟨stdin, stdout, stderr⟩ := into
  cases redirect with
  | stdin source =>
    cases stdin with
    | some x => cases h
    | none =>
      cases h
      cases source <;> simp only [redirectOperands, Redirect.operands, List.mem_append] at hmem ⊢ <;> tauto
  | stdout mode target =>
    cases stdout with
    | some x => cases h
    | none =>
      cases h
      simp only [redirectOperands, Redirect.operands, List.mem_append] at hmem ⊢
      tauto
  | stderr mode target =>
    cases stderr with
    | some x => cases x <;> cases h
    | none =>
      cases h
      simp only [redirectOperands, Redirect.operands, List.mem_append] at hmem ⊢
      tauto
  | stderrToStdout =>
    cases stderr with
    | some x => cases x <;> cases h
    | none =>
      cases h
      left
      exact hmem

namespace Parse

theorem reads_parseRedirect (hd : Sound source height level room d)
    (hfit : Fit source tokens height level room s) :
    Reads (parseRedirect d) s fun redirect t => s.pos < t.pos ∧
      ∀ word ∈ redirect.operands, Held tokens s.pos t.pos fun o => Placed source .borrowed o word := by
  apply Reads.get
  split
  · next hp =>
    apply reads_advance.bind
    intro _ t _ hpos
    have hpos := hpos (Parser.lt_of_peek (by simp [hp]))
    exact .pure ⟨by omega, by simp [Redirect.operands]⟩
  · next op hp =>
    apply reads_advance.bind
    intro _ t ht _
    apply Reads.get
    apply Reads.ite
    · intro _
      exact .fail
    · intro _
      apply (reads_capture (hfit.moves ht) (reads_parseWord hd (hfit.moves ht))).bind
      intro word u hu hword
      split
      · exact .fail
      · apply (reads_endUnit hd ((hfit.moves ht).moves hu) word.1).bind
        intro _ v _ he
        subst he
        have htree := hword.tree.widen ht.pos (le_refl _)
        refine .pure ⟨htree.1, ?_⟩
        intro w hmem
        rw [operands_redirectWord, List.mem_singleton] at hmem
        subst hmem
        exact htree.2
  · exact .fail

theorem reads_parseRedirectInto (hd : Sound source height level room d)
    (hfit : Fit source tokens height level room s) {into : Redirects Ast} {a : ℕ} (ha : a ≤ s.pos)
    (hinto : Held tokens a s.pos fun o => RedirectsIn source o into) :
    Reads (parseRedirectInto d into) s fun redirects t =>
      s.pos < t.pos ∧ Held tokens a t.pos fun o => RedirectsIn source o redirects := by
  apply (reads_captureSpan (Q := fun redirect t => ∀ word ∈ Redirect.operands redirect,
    Held tokens s.pos t.pos fun o => Placed source .borrowed o word) hfit (reads_parseRedirect hd hfit)).bind
  intro redirect t hm hredirect
  obtain ⟨hlt, _, hwords⟩ := hredirect
  split
  · next redirects hbind =>
    refine .pure ⟨hlt, ?_⟩
    intro i j hi hj hlen word hmem
    rcases mem_bindRedirect hbind hmem with hmem | hmem
    · exact hinto i j hi (le_trans hm.pos hj) hlen word hmem
    · exact hwords word hmem i j (le_trans hi ha) hj hlen
  · exact .fail

theorem held_noRedirects {a b : ℕ} : Held tokens a b fun o => RedirectsIn source o noRedirects := by
  intro i j _ _ _ word hmem
  simp [redirectOperands, noRedirects] at hmem

theorem reads_collectTrailingRedirects (hd : Sound source height level room d)
    (hfit : Fit source tokens height level room s) :
    Reads (collectTrailingRedirects d) s fun redirects t =>
      Held tokens s.pos t.pos fun o => RedirectsIn source o redirects := by
  apply reads_loop fun redirects t => Held tokens s.pos t.pos fun o => RedirectsIn source o redirects
  · exact held_noRedirects
  · intro redirects t hm h
    apply Reads.get
    apply Reads.ite
    · intro _
      apply (reads_parseRedirectInto hd (hfit.moves hm) hm.pos h).bind
      intro redirects u _ h
      exact .pure h
    · intro _
      exact .pure h

/-! ## Commands -/

def HeadTree (source : Span) (tokens : List Lexeme) (a b : ℕ) (head : Head Ast) : Prop :=
  ∀ tree, head = .value tree → Held tokens a b fun o => Placed source .borrowed o tree

theorem headOf_tree {atom : Ast} {a b : ℕ} (h : Held tokens a b fun o => Placed source .borrowed o atom) :
    HeadTree source tokens a b (headOf atom) := by
  intro tree he
  unfold headOf at he
  split at he
  · cases he
  · split at he
    · cases he
      exact h
    · cases he
  · split at he
    · cases he
    · cases he
      exact h
  · cases he
    exact h

theorem reads_parseHead (hd : Sound source height level room d)
    (hfit : Fit source tokens height level room s) :
    Reads (parseHead d) s fun head t => s.pos < t.pos ∧ HeadTree source tokens s.pos t.pos head := by
  apply (reads_eat rfl).bind
  intro caret t ht heat
  apply Reads.ite
  · intro hcaret
    have hpos := (heat.1 hcaret).2
    apply Reads.get
    apply reads_attached.bind
    intro _ u hu he
    subst he
    split
    · apply reads_advance.bind
      intro _ v hv _
      have hle := hv.pos
      apply Reads.get
      apply (reads_endUnit hd ((hfit.moves ht).moves hv) _).bind
      intro _ w _ he
      subst he
      exact .pure ⟨by omega, nofun⟩
    · exact .fail
    · exact .fail
  · intro hcaret
    have he := heat.2 (by simpa using hcaret)
    subst he
    apply Reads.get
    apply (reads_parseAtom hd hfit).bind
    intro atom u _ hatom
    split
    · refine .pure ⟨hatom.1, ?_⟩
      intro tree he
      cases he
      exact hatom.2
    · exact .pure ⟨hatom.1, headOf_tree hatom.2⟩

structure HeadHeld (source : Span) (tokens : List Lexeme) (a b : ℕ) (head : Spanned (Head Ast)) :
    Prop where
  span : Held tokens a b head.span.Inside
  tree : ∀ tree, head.item = .value tree →
    Held tokens a b fun o => PlacedIn source .borrowed o ⟨head.span, tree⟩

theorem reads_spannedHead (hd : Sound source height level room d)
    (hfit : Fit source tokens height level room s) :
    Reads (spanned (parseHead d)) s fun head t =>
      s.pos < t.pos ∧ HeadHeld source tokens s.pos t.pos head := by
  apply (reads_captureSpan (Q := fun head t => HeadTree source tokens s.pos t.pos head) hfit
    (reads_parseHead hd hfit)).bind
  intro r t hm h
  obtain ⟨hlt, hspan, htree⟩ := h
  obtain ⟨whole, _, hlaid⟩ := hfit.laid
  have hinside : Held tokens s.pos t.pos r.1.Inside := by
    intro i j hi hj hlen
    rw [hspan]
    exact hlaid.cover_inside hi hlt hj hlen
  refine .pure ⟨hlt, hinside, ?_⟩
  intro tree he i j hi hj hlen
  refine ⟨hinside i j hi hj hlen, ?_⟩
  have hplaced := htree tree he s.pos t.pos (le_refl _) (le_refl _) (hfit.moves hm).inside
  simpa only [hspan] using hplaced

def FormAt (source : Span) (tokens : List Lexeme) (s : Parser) (form : Ast × Redirects Ast)
    (t : Parser) : Prop :=
  TreeAt source tokens s form.1 t ∧ Held tokens s.pos t.pos fun o => RedirectsIn source o form.2

/-- A command's arguments and redirects up to a place. -/
structure PartsAt (source : Span) (tokens : List Lexeme) (a : ℕ)
    (parts : List (Spanned Ast) × Redirects Ast) (t : Parser) : Prop where
  args : ∀ arg ∈ parts.1, Held tokens a t.pos fun o => PlacedIn source .borrowed o arg
  redirects : Held tokens a t.pos fun o => RedirectsIn source o parts.2

theorem reads_parseCommand (hd : Sound source height level room d)
    (hfit : Fit source tokens height level room s) :
    Reads (parseCommand d) s (FormAt source tokens s) := by
  apply Reads.get
  apply Reads.ite
  · intro _
    exact .fail
  · intro _
    split
    · exact .fail
    · apply (reads_spannedHead hd hfit).bind
      intro head t ht hhead
      obtain ⟨hlt, hhead⟩ := hhead
      apply Reads.bind (Q := PartsAt source tokens s.pos)
      · apply reads_loop (PartsAt source tokens s.pos)
        · exact ⟨by simp, held_noRedirects⟩
        · intro parts u hu h
          have hfit' := (hfit.moves ht).moves hu
          have hle := ht.pos
          have hle' := hu.pos
          apply Reads.get
          apply Reads.ite
          · intro _
            exact .pure h
          · intro _
            apply Reads.ite
            · intro _
              apply (reads_parseRedirectInto hd hfit' (by omega) h.redirects).bind
              intro redirects v hv hredirects
              refine .pure ⟨hredirects.1, ?_, hredirects.2⟩
              intro arg hmem
              exact (h.args arg hmem).widen (le_refl _) hv.pos
            · intro _
              apply (reads_spanned hfit' (reads_parseArg hd hfit')).bind
              intro arg v hv harg
              refine .pure ⟨harg.1, ?_, h.redirects.widen (le_refl _) hv.pos⟩
              intro x hmem
              rcases List.mem_append.mp hmem with hmem | hmem
              · exact (h.args x hmem).widen (le_refl _) hv.pos
              · rw [List.mem_singleton.mp hmem]
                exact harg.2.widen (by omega) (le_refl _)
      · intro parts u hu h
        obtain ⟨args, redirects⟩ := parts
        have hle := hu.pos
        dsimp only
        split
        · next value hitem =>
          refine .pure ⟨⟨by omega, ?_⟩, h.redirects⟩
          intro i j hi hj hlen
          obtain ⟨hinside, hplaced⟩ := hhead.tree value hitem i j hi (by omega) hlen
          exact hplaced.mono hinside.start hinside.stop
        · refine .pure ⟨treeAt_node (by omega) ?_ ?_ ?_, h.redirects⟩
          · intro span hmem
            rw [List.mem_singleton.mp hmem]
            exact hhead.span.widen (le_refl _) hle
          · intro child hmem
            simp only [Ast.spanned] at hmem
            split at hmem
            · next tree hitem =>
              rcases List.mem_cons.mp hmem with rfl | hmem
              · exact (hhead.tree tree hitem).widen (le_refl _) hle
              · exact h.args child hmem
            · exact h.args child hmem
          · simp [Ast.bare]

end Parse

/-! ## Options -/

structure OptionsIn (source outer : Span) (options : Options Ast) (handlers : Option (List (HandlerArm Ast))) :
    Prop where
  options : ∀ option ∈ options, PlacedIn source .borrowed outer option.2
  handlers : ∀ arm ∈ handlers.getD [], PlacedIn source .borrowed outer arm.value

section Options
variable {outer : Span} {form : Form}

theorem Placed.children {tree : Ast} (h : Placed source .borrowed outer tree)
    (hlambda : ∀ param body, tree ≠ .lambda param body) :
    ∀ child ∈ tree.spanned, PlacedIn source .borrowed outer child := by
  cases h with
  | node _ hspanned hplaced _ => exact fun child hmem => ⟨hspanned child hmem, hplaced child hmem⟩
  | curried => exact absurd rfl (hlambda _ _)

theorem armsOf_in {arms arms' : List (HandlerArm Ast)} {entries : List (RecordEntry Ast)}
    (h : armsOf form arms entries = .ok arms')
    (harms : ∀ arm ∈ arms, PlacedIn source .borrowed outer arm.value)
    (hentries : ∀ child ∈ (Ast.record entries).spanned, PlacedIn source .borrowed outer child) :
    ∀ arm ∈ arms', PlacedIn source .borrowed outer arm.value := by
  induction entries generalizing arms with
  | nil =>
    cases h
    exact harms
  | cons entry entries ih =>
    cases entry with
    | spread base => cases h
    | field key value =>
      unfold armsOf at h
      split at h
      · cases h
      · apply ih h
        · intro arm hmem
          rcases List.mem_append.mp hmem with hmem | hmem
          · exact harms arm hmem
          · rw [List.mem_singleton.mp hmem]
            exact hentries value List.mem_cons_self
        · exact fun child hmem => hentries child (List.mem_cons_of_mem _ hmem)

theorem handlerArms_in {value : Spanned Ast} {arms : List (HandlerArm Ast)}
    (h : handlerArms form value = .ok arms) (hvalue : PlacedIn source .borrowed outer value) :
    ∀ arm ∈ arms, PlacedIn source .borrowed outer arm.value := by
  obtain ⟨span, item⟩ := value
  obtain ⟨hinside, hplaced⟩ := hvalue
  unfold handlerArms at h
  split at h
  · exact armsOf_in h (by simp) (by simp [Ast.spanned_record])
  · next entries hitem =>
    dsimp only at hitem hplaced
    subst hitem
    apply armsOf_in h (by simp)
    intro child hmem
    exact (hplaced.children (by simp) child hmem).mono hinside.start hinside.stop
  · cases h
  · cases h
  · cases h

theorem optionsOf_in {arms : Bool} {sample : String} {options options' : Options Ast}
    {handlers handlers' : Option (List (HandlerArm Ast))} {items : List CollectionItem}
    (h : optionsOf form arms sample options handlers items = .ok (options', handlers'))
    (hstart : OptionsIn source outer options handlers)
    (hitems : ∀ item ∈ items, CollectionItem.In source outer item) :
    OptionsIn source outer options' handlers' := by
  induction items generalizing options handlers with
  | nil =>
    cases h
    exact hstart
  | cons item items ih =>
    have hrest : ∀ item ∈ items, CollectionItem.In source outer item :=
      fun x hmem => hitems x (List.mem_cons_of_mem _ hmem)
    cases item with
    | spread base => cases h
    | elem a => cases h
    | entry key value =>
      obtain ⟨_, hvalue⟩ := hitems _ List.mem_cons_self
      cases key with
      | data key => cases h
      | label key =>
        unfold optionsOf at h
        split at h
        · split at h
          · cases h
          · obtain ⟨read, hread, h⟩ := Fallible.bind_eq_ok.mp h
            exact ih h ⟨hstart.options, handlerArms_in hread hvalue⟩ hrest
        · split at h
          · cases h
          · apply ih h ⟨?_, hstart.handlers⟩ hrest
            intro option hmem
            rcases List.mem_append.mp hmem with hmem | hmem
            · exact hstart.options option hmem
            · rw [List.mem_singleton.mp hmem]
              exact hvalue

end Options

namespace Parse

theorem reads_operandSlot {form : Form} : Reads (operandSlot form) s fun _ t => t = s := by
  apply Reads.get
  apply Reads.ite
  · intro _
    exact .fail
  · intro _
    apply Reads.ite
    · intro _
      exact .fail
    · intro _
      exact .pure rfl

theorem reads_operand (hd : Sound source height level room d) {form : Form}
    (hfit : Fit source tokens height level room s) :
    Reads (operand d form) s fun r t => TreeAt source tokens s r.1 t := by
  apply reads_operandSlot.bind
  intro form' t _ he
  subst he
  apply (reads_parseAtom hd hfit).bind
  intro tree u _ htree
  exact .pure htree

theorem reads_noMoreOperands {form : Form} : Reads (noMoreOperands form) s fun _ t => t = s := by
  apply Reads.get
  apply Reads.ite
  · intro _
    exact .pure rfl
  · intro _
    exact .fail

theorem reads_parseOptions (hd : Sound source height level room d) {form : Form} {arms : Bool}
    {sample : String} (hfit : Fit source tokens height level room s) :
    Reads (parseOptions d form arms sample) s fun r t =>
      Held tokens s.pos t.pos fun o => OptionsIn source o r.1 r.2 := by
  apply Reads.get
  apply Reads.ite
  · intro _
    exact .fail
  · intro _
    apply reads_advance.bind
    intro _ t ht _
    apply (reads_eat rfl).bind
    intro empty u hu _
    apply Reads.get
    apply Reads.ite
    · intro _
      apply (reads_endUnit hd ((hfit.moves ht).moves hu) _).bind
      intro _ v _ _
      exact .pure fun _ _ _ _ _ => ⟨by simp, by simp⟩
    · intro _
      apply Reads.ite
      · intro _
        exact .fail
      · intro _
        have hfit' := (hfit.moves ht).moves hu
        apply (reads_parseItems hd hfit').bind
        intro items v hv hitems
        apply Reads.get
        apply (reads_endUnit hd (hfit'.moves hv) _).bind
        intro _ w _ he
        subst he
        apply Reads.ofExcept
        intro r hr i j hi hj hlen
        have hle := ht.pos
        have hle' := hu.pos
        obtain ⟨options, handlers⟩ := r
        apply optionsOf_in hr ⟨by simp, by simp⟩
        intro item hmem
        exact hitems.2 item hmem i j (by omega) hj hlen

theorem reads_twoOperands (hd : Sound source height level room d) {form : Form}
    (hfit : Fit source tokens height level room s) :
    Reads (twoOperands d form) s fun r t =>
      TreeAt source tokens s r.1 t ∧ TreeAt source tokens s r.2 t := by
  apply (reads_operand hd hfit).bind
  intro r t ht htree
  obtain ⟨first, form'⟩ := r
  apply (reads_operand hd (hfit.moves ht)).bind
  intro r u hu htree'
  obtain ⟨second, form''⟩ := r
  apply reads_noMoreOperands.bind
  intro _ v _ he
  subst he
  exact .pure ⟨htree.widen (le_refl _) hu.pos, htree'.widen ht.pos (le_refl _)⟩

theorem reads_oneOperand (hd : Sound source height level room d) {form : Form}
    (hfit : Fit source tokens height level room s) :
    Reads (oneOperand d form) s (TreeAt source tokens s) := by
  apply (reads_operand hd hfit).bind
  intro r t _ htree
  obtain ⟨tree, form'⟩ := r
  apply reads_noMoreOperands.bind
  intro _ u _ he
  subst he
  exact .pure htree

theorem reads_optionsOperand (hd : Sound source height level room d) {form : Form} {arms : Bool}
    {sample : String} (hfit : Fit source tokens height level room s) :
    Reads (optionsOperand d form arms sample) s fun r t => TreeAt source tokens s r.2 t ∧
      Held tokens s.pos t.pos fun o => OptionsIn source o r.1.1 r.1.2 := by
  apply reads_operandSlot.bind
  intro form' t _ he
  subst he
  apply (reads_parseOptions hd hfit).bind
  intro options u hu hoptions
  apply (reads_operand hd (hfit.moves hu)).bind
  intro r v hv htree
  obtain ⟨body, form''⟩ := r
  apply reads_noMoreOperands.bind
  intro _ w _ he
  subst he
  exact .pure ⟨htree.widen hu.pos (le_refl _), hoptions.widen (le_refl _) hv.pos⟩

theorem reads_spawnOperands (hd : Sound source height level room d) {form : Form}
    (hfit : Fit source tokens height level room s) :
    Reads (spawnOperands d form) s fun r t => TreeAt source tokens s r.2 t ∧
      ∀ title, r.1 = some title → Held tokens s.pos t.pos fun o => PlacedIn source .borrowed o title := by
  apply reads_operandSlot.bind
  intro form' t _ he
  subst he
  apply (reads_capture hfit (reads_parseAtom hd hfit)).bind
  intro first u hu hfirst
  apply Reads.get
  apply Reads.ite
  · intro _
    apply reads_noMoreOperands.bind
    intro _ v _ he
    subst he
    exact .pure ⟨hfirst.tree, nofun⟩
  · intro _
    apply (reads_operand hd (hfit.moves hu)).bind
    intro r v hv htree
    obtain ⟨body, form''⟩ := r
    apply reads_noMoreOperands.bind
    intro _ w _ he
    subst he
    refine .pure ⟨htree.widen hu.pos (le_refl _), ?_⟩
    intro title he
    cases he
    exact hfirst.2.widen (le_refl _) hv.pos

theorem treeAt_scope {form : ScopeAst Ast} (hlt : s.pos < t.pos)
    (hspanned : ∀ child ∈ (Ast.scope form).spanned,
      Held tokens s.pos t.pos fun o => PlacedIn source .borrowed o child)
    (hbare : ∀ child ∈ (Ast.scope form).bare, TreeAt source tokens s child t) :
    TreeAt source tokens s (.scope form) t :=
  treeAt_node hlt (by simp) hspanned fun child hmem => (hbare child hmem).2

theorem reads_parseControlOp (hd : Sound source height level room d) {name : String}
    (hname : isControlOperator name = true) (hfit : Fit source tokens height level room s) :
    Reads (parseControlOp d name) s (TreeAt source tokens s) := by
  apply reads_advance.bind
  intro _ t ht _
  have hfit' := hfit.moves ht
  suffices h : Reads _ t (TreeAt source tokens t) from
    h.mono fun tree u _ h => h.widen ht.pos (le_refl _)
  have two {node : Ast → Ast → ScopeAst Ast} {form : Form}
      (hspanned : ∀ a b, (Ast.scope (node a b)).spanned = [])
      (hbare : ∀ a b, (Ast.scope (node a b)).bare = [a, b]) : Reads (do
        let operands ← twoOperands d form
        pure (Ast.scope (node operands.1 operands.2))) t (TreeAt source tokens t) := by
    apply (reads_twoOperands hd hfit').bind
    intro r u _ h
    obtain ⟨a, b⟩ := r
    refine .pure (treeAt_scope h.1.1 (by simp [hspanned]) ?_)
    intro child hmem
    rw [hbare] at hmem
    rcases List.mem_cons.mp hmem with rfl | hmem
    · exact h.1
    · rw [List.mem_singleton.mp hmem]
      exact h.2
  have one {node : Ast → ScopeAst Ast} {form : Form} (hspanned : ∀ a, (Ast.scope (node a)).spanned = [])
      (hbare : ∀ a, (Ast.scope (node a)).bare = [a]) : Reads (do
        let a ← oneOperand d form
        pure (Ast.scope (node a))) t (TreeAt source tokens t) := by
    apply (reads_oneOperand hd hfit').bind
    intro tree u _ h
    refine .pure (treeAt_scope h.1 (by simp [hspanned]) ?_)
    intro child hmem
    rw [hbare, List.mem_singleton] at hmem
    exact hmem ▸ h
  apply Reads.ite
  · intro _
    exact two (fun _ _ => rfl) fun _ _ => rfl
  intro htry
  apply Reads.ite
  · intro _
    exact two (fun _ _ => rfl) fun _ _ => rfl
  intro hguard
  apply Reads.ite
  · intro _
    apply (reads_optionsOperand hd hfit').bind
    intro r u _ h
    obtain ⟨options, body⟩ := r
    refine .pure (treeAt_scope h.1.1 ?_ ?_)
    · intro child hmem i j hi hj hlen
      have hin := h.2 i j hi hj hlen
      simp only [Ast.spanned, List.mem_append, List.mem_map] at hmem
      rcases hmem with ⟨option, hmem, rfl⟩ | ⟨arm, hmem, rfl⟩
      · exact hin.options option hmem
      · exact hin.handlers arm hmem
    · intro child hmem
      rw [List.mem_singleton.mp hmem]
      exact h.1
  intro hwithin
  apply Reads.ite
  · intro _
    apply (reads_optionsOperand hd hfit').bind
    intro r u _ h
    obtain ⟨options, body⟩ := r
    refine .pure (treeAt_scope h.1.1 ?_ ?_)
    · intro child hmem i j hi hj hlen
      obtain ⟨option, hoption, rfl⟩ := List.mem_map.mp hmem
      exact (h.2 i j hi hj hlen).options option hoption
    · intro child hmem
      rw [List.mem_singleton.mp hmem]
      exact h.1
  intro hgrant
  apply Reads.ite
  · intro _
    exact one (fun _ => rfl) fun _ => rfl
  intro haudit
  apply Reads.ite
  · intro _
    apply (reads_spawnOperands hd hfit').bind
    intro r u _ h
    obtain ⟨title, body⟩ := r
    refine .pure (treeAt_scope h.1.1 ?_ ?_)
    · intro child hmem
      simp only [Ast.spanned, Option.mem_toList] at hmem
      exact h.2 child hmem
    · intro child hmem
      rw [List.mem_singleton.mp hmem]
      exact h.1
  intro hspawn
  apply Reads.ite
  · intro _
    exact one (fun _ => rfl) fun _ => rfl
  intro hgather
  simp [isControlOperator, controlOperators, htry, hguard, hwithin, hgrant, haudit, hspawn, hgather] at hname

end Parse

end Ral.Syntax
