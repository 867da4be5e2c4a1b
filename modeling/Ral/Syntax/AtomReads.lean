import Ral.Syntax.Reading

/-! # Readings of atoms

Every production of the value grammar ends and places what it reads, over a descent whose
entries do.
-/

namespace Ral.Syntax

/-! ## Soundness -/

def StreamOk (source at' : Span) (x : Option (Except ParseError Ast)) : Prop :=
  ∃ r, x = some r ∧ ∀ tree, r = .ok tree → Placed source .borrowed at' tree

/-- The entries one level down read trees, and streams of their own are parsed. -/
structure Entries (source : Span) (height level : ℕ) (d : Descent) : Prop where
  primary : ∀ {tokens room s}, Fit source tokens height level room s →
    Reads d.parsePrimary s (TreeAt source tokens s)
  pattern : ∀ {tokens room s}, Fit source tokens height level room s →
    Reads d.parsePattern s fun _ t => s.pos < t.pos
  operand : ∀ {tokens room s}, Fit source tokens height level room s →
    Reads d.parseExprOperand s (TreeAt source tokens s)
  arm : ∀ {tokens room s} label, Fit source tokens height level room s →
    Reads (d.parseCaseArmLambda label) s (TreeAt source tokens s)
  block : ∀ {tokens at'}, Laid at' tokens → at'.Inside source → heights tokens < height →
    StreamOk source at' (d.parseExprBlock tokens at')
  splice : ∀ {tokens at'}, Laid at' tokens → at'.Inside source → heights tokens < height →
    StreamOk source at' (d.parseSplice tokens at')

/-- Atoms are read as well, with fewer than `room` tokens ahead. -/
structure Sound (source : Span) (height level room : ℕ) (d : Descent) : Prop extends
    Entries source height level d where
  atom : ∀ {tokens s}, Fit source tokens height level room s →
    Reads d.parseAtomUnchecked s (TreeAt source tokens s)

variable {source : Span} {tokens : List Lexeme} {height level room : ℕ} {s t : Parser} {d : Descent}

theorem treeAt_node {tree : Ast} (hlt : s.pos < t.pos)
    (hmarks : ∀ span ∈ tree.marks, Held tokens s.pos t.pos span.Inside)
    (hspanned : ∀ child ∈ tree.spanned, Held tokens s.pos t.pos fun o => PlacedIn source .borrowed o child)
    (hbare : ∀ child ∈ tree.bare, Held tokens s.pos t.pos fun o => Placed source .borrowed o child) :
    TreeAt source tokens s tree t := by
  refine ⟨hlt, ?_⟩
  intro i j hi hj hlen
  apply Placed.of_children
  · intro span hmem
    exact hmarks span hmem i j hi hj hlen
  · intro child hmem
    exact hspanned child hmem i j hi hj hlen
  · intro child hmem
    exact hbare child hmem i j hi hj hlen

theorem treeAt_single {tree : Ast} {child : Spanned Ast} {u v : Parser} (hspanned : tree.spanned = [child])
    (hmarks : tree.marks = []) (hbare : tree.bare = []) (hchild : ChildAt source tokens u child v)
    (hs : s.pos ≤ u.pos) (ht : v.pos ≤ t.pos) : TreeAt source tokens s tree t := by
  have hlt := hchild.1
  apply treeAt_node
  · omega
  · simp [hmarks]
  · intro c hmem
    rw [hspanned, List.mem_singleton] at hmem
    subst hmem
    exact hchild.2.widen hs ht
  · simp [hbare]

theorem TreeAt.widen {tree : Ast} {u v : Parser} (h : TreeAt source tokens u tree v)
    (hs : s.pos ≤ u.pos) (ht : v.pos ≤ t.pos) : TreeAt source tokens s tree t := by
  have hlt := h.1
  exact ⟨by omega, h.2.widen hs ht⟩

theorem Parser.peek_of_signedNumeral {numeral : String} (h : s.signedNumeral = some numeral) :
    s.peek ≠ .eof := by
  intro he
  simp [Parser.signedNumeral, he] at h

namespace Parse

/-! ## Touching -/

theorem reads_argOf {atom : Parse Ast} (hfit : Fit source tokens height level room s)
    (hatom : ∀ {t}, Fit source tokens height level room t → Reads atom t (TreeAt source tokens t)) :
    Reads (argOf atom) s (TreeAt source tokens s) := by
  apply (reads_eat rfl).bind
  intro spread t hm heat
  apply Reads.ite
  · intro hspread
    have hpos := (heat.1 hspread).2
    apply Reads.get
    apply Reads.ite
    · intro _
      exact .fail
    · intro _
      apply reads_attached.bind
      intro _ u hu he
      subst he
      apply (reads_capture (hfit.moves hm) (hatom (hfit.moves hm))).bind
      intro inner v hv hchild
      exact .pure (treeAt_single rfl rfl rfl hchild (by omega) (le_refl _))
  · intro hspread
    have he := heat.2 (by simpa using hspread)
    subst he
    exact hatom hfit

theorem reads_parseArgUnchecked (hd : Sound source height level room d)
    (hfit : Fit source tokens height level room s) :
    Reads (parseArgUnchecked d) s (TreeAt source tokens s) := reads_argOf hfit hd.atom

theorem reads_touchingRun (hd : Sound source height level room d)
    (hfit : Fit source tokens height level room s) (first : Span) :
    Reads (touchingRun d first) s fun _ _ => True := by
  apply (reads_capture hfit (reads_parseArgUnchecked hd hfit)).bind
  intro second t hm _
  apply Reads.bind (Q := fun _ _ => True)
  · apply reads_loop (fun _ _ => True) trivial
    intro last u hu _
    apply Reads.get
    apply Reads.ite
    · intro _
      have hfit' := (hfit.moves hm).moves hu
      apply (reads_capture hfit' (reads_parseArgUnchecked hd hfit')).bind
      intro more v hv hmore
      exact .pure ⟨hmore.1, trivial⟩
    · intro _
      exact .pure trivial
  · intro _ _ _ _
    exact .pure trivial

theorem reads_touching (hd : Sound source height level room d)
    (hfit : Fit source tokens height level room s) (first : Span) :
    Reads (touching d first) s fun _ _ => True := by
  apply (Reads.attempt (P := fun _ _ => True) (reads_touchingRun hd hfit first) (fun _ _ => trivial)).bind
  intro run t hm _
  cases run with
  | ok e => exact .pure trivial
  | error e => exact .pure trivial

theorem reads_endUnit (hd : Sound source height level room d)
    (hfit : Fit source tokens height level room s) (unit : Span) :
    Reads (endUnit d unit) s fun _ t => t = s := by
  apply Reads.get
  apply Reads.ite
  · intro _
    apply (reads_touching hd hfit unit).bind
    intro e t _ _
    exact .fail
  · intro _
    exact .pure rfl

theorem reads_parseAtom (hd : Sound source height level room d)
    (hfit : Fit source tokens height level room s) :
    Reads (parseAtom d) s (TreeAt source tokens s) := by
  apply (reads_captureSpan hfit (hd.atom hfit)).bind
  intro atom t hm hatom
  apply (reads_endUnit hd (hfit.moves hm) atom.1).bind
  intro _ u hu he
  subst he
  exact .pure ⟨hatom.1, hatom.2.2⟩

theorem reads_parseArg (hd : Sound source height level room d)
    (hfit : Fit source tokens height level room s) :
    Reads (parseArg d) s (TreeAt source tokens s) := reads_argOf hfit (reads_parseAtom hd)

end Parse

/-! ## Nested streams -/

theorem heights_mem {l : Lexeme} (h : l ∈ tokens) : l.token.height ≤ heights tokens := by
  induction tokens with
  | nil => cases h
  | cons head rest ih =>
    obtain ⟨token, span⟩ := head
    simp only [heights]
    rcases List.mem_cons.mp h with rfl | h
    · exact Nat.le_max_left _ _
    · exact le_trans (ih h) (Nat.le_max_right _ _)

theorem partHeights_mem {parts : List (Span × StringPart)} {at' : Span} {inner : List Lexeme}
    (h : (at', .splice inner) ∈ parts) : heights inner < partHeights parts := by
  induction parts with
  | nil => cases h
  | cons head rest ih =>
    obtain ⟨span, part⟩ := head
    rcases List.mem_cons.mp h with he | h
    · cases he
      simp only [partHeights]
      omega
    · have hlt := ih h
      cases part with
      | literal => simpa only [partHeights] using hlt
      | splice =>
        simp only [partHeights]
        omega

/-- The parts of a string token: each within the token, each splice a stream below it. -/
structure PartsOk (source span : Span) (height : ℕ) (parts : List (Span × StringPart)) : Prop where
  inside : ∀ part ∈ parts, part.1.Inside span
  splice : ∀ at' inner, (at', .splice inner) ∈ parts → Laid at' inner ∧ heights inner < height
  source : span.Inside source

theorem Fit.partsOk (hfit : Fit source tokens height level room s) {parts : List (Span × StringPart)}
    (hp : s.peek = .doubleQuoted parts) : PartsOk source s.span height parts := by
  have hlt : s.pos < tokens.length := by
    rw [← hfit.stream]
    exact Parser.lt_of_peek (by simp [hp])
  have hmem := hfit.mem_of_peek hp hlt
  have hheight := heights_mem hmem
  have hlow := hfit.low
  obtain ⟨whole, hwhole, hlaid⟩ := hfit.laid
  refine ⟨hlaid.part hmem, ?_, (hlaid.inside _ hmem).trans hwhole⟩
  intro at' inner hpart
  have hinner := partHeights_mem hpart
  simp only [Lexeme.token, Token.height] at hheight
  exact ⟨hlaid.splice hmem hpart, by omega⟩

theorem treeAt_token (hfit : Fit source tokens height level room s) (hlt : s.pos < tokens.length)
    (hpos : t.pos = s.pos + 1) {tree : Ast} (h : Placed source .borrowed s.span tree) :
    TreeAt source tokens s tree t := by
  refine ⟨by omega, ?_⟩
  intro i j hi hj hlen
  have hspan := hfit.held_span hlt i j hi (by omega) hlen
  exact h.mono hspan.start hspan.stop

namespace Parse

theorem reads_parseSegment (hd : Sound source height level room d) {span : Span}
    {parts : List (Span × StringPart)} (hparts : PartsOk source span height parts)
    {part : Span × StringPart} (hmem : part ∈ parts) :
    Reads (parseSegment d part) s fun segment t => t = s ∧ PlacedIn source .borrowed span segment := by
  obtain ⟨at', part⟩ := part
  have hinside := hparts.inside _ hmem
  cases part with
  | literal text => exact .pure ⟨rfl, hinside, .of_bare ⟨rfl, rfl, rfl⟩⟩
  | splice inner =>
    obtain ⟨hlaid, hheight⟩ := hparts.splice at' inner hmem
    obtain ⟨r, hr, hplaced⟩ := hd.splice hlaid (hinside.trans hparts.source) hheight
    apply Reads.bind (Q := fun tree t => t = s ∧ Placed source .borrowed at' tree)
    · exact .lift hr fun tree htree => ⟨rfl, hplaced tree htree⟩
    · intro tree t _ htree
      exact .pure ⟨htree.1, hinside, htree.2⟩

theorem reads_parseSegments (hd : Sound source height level room d) {span : Span}
    {parts : List (Span × StringPart)} (hparts : PartsOk source span height parts) :
    Reads (parseSegments d parts) s fun segments t =>
      t = s ∧ ∀ child ∈ segments, PlacedIn source .borrowed span child := by
  suffices h : ∀ rest, rest ⊆ parts → Reads (parseSegments d rest) s fun segments t =>
      t = s ∧ ∀ child ∈ segments, PlacedIn source .borrowed span child from h parts (List.Subset.refl _)
  intro rest
  induction rest with
  | nil =>
    intro _
    exact .pure ⟨rfl, by simp⟩
  | cons part rest ih =>
    intro hsub
    apply (reads_parseSegment hd hparts (hsub List.mem_cons_self)).bind
    intro segment t _ hsegment
    obtain ⟨rfl, hsegment⟩ := hsegment
    apply (ih fun x hx => hsub (List.mem_cons_of_mem _ hx)).bind
    intro segments u _ hsegments
    obtain ⟨rfl, hsegments⟩ := hsegments
    refine .pure ⟨rfl, ?_⟩
    intro child hmem
    rcases List.mem_cons.mp hmem with rfl | hmem
    · exact hsegment
    · exact hsegments child hmem

theorem reads_parseInterpolationParts (hd : Sound source height level room d) {span : Span}
    {parts : List (Span × StringPart)} (hparts : PartsOk source span height parts) :
    Reads (parseInterpolationParts d parts) s fun tree t =>
      t = s ∧ Placed source .borrowed span tree := by
  unfold parseInterpolationParts
  split
  · exact .pure ⟨rfl, .of_bare ⟨rfl, rfl, rfl⟩⟩
  · apply (reads_parseSegments hd hparts).bind
    intro segments t _ h
    obtain ⟨rfl, hsegments⟩ := h
    refine .pure ⟨rfl, .of_children ?_ ?_ ?_⟩
    · simp [Ast.marks]
    · exact hsegments
    · simp [Ast.bare]

/-! ## Words -/

theorem reads_parseBang (hd : Sound source height level room d)
    (hfit : Fit source tokens height level room s) :
    Reads (parseBang d) s (TreeAt source tokens s) := by
  apply Reads.bind (Q := fun inner t => ChildAt source tokens s ⟨inner.1, inner.2⟩ t)
  · apply reads_capture hfit
    apply reads_advance.bind
    intro _ t hm _
    apply reads_attached.bind
    intro _ u hu he
    subst he
    apply Reads.get
    have hfit' := hfit.moves hm
    split
    · exact (hd.atom hfit').mono fun tree v _ h => h.widen hm.pos (le_refl _)
    · exact (hd.primary hfit').mono fun tree v _ h => h.widen hm.pos (le_refl _)
  · intro inner t _ hchild
    exact .pure (treeAt_single rfl rfl rfl hchild (le_refl _) (le_refl _))

theorem reads_token (hp : s.peek ≠ .eof) {tree : Ast} (htree : tree.Bare) :
    Reads (advance >>= fun _ => pure tree) s (TreeAt source tokens s) := by
  apply reads_advance.bind
  intro _ t _ hpos
  have hpos := hpos (Parser.lt_of_peek hp)
  exact .pure (treeAt_bare htree (by omega))

theorem reads_parseWord (hd : Sound source height level room d)
    (hfit : Fit source tokens height level room s) :
    Reads (parseWord d) s (TreeAt source tokens s) := by
  apply Reads.get
  split
  · next numeral hn =>
    apply reads_advance.bind
    intro _ t hm hpos
    have hpos := hpos (Parser.lt_of_peek (Parser.peek_of_signedNumeral hn))
    apply reads_advance.bind
    intro _ u hu _
    have hle := hu.pos
    exact .pure (treeAt_bare ⟨rfl, rfl, rfl⟩ (by omega))
  · split
    · next w hp => exact reads_token (by simp [hp]) ⟨rfl, rfl, rfl⟩
    · next text hp => exact reads_token (by simp [hp]) ⟨rfl, rfl, rfl⟩
    · next parts hp =>
      have hlt : s.pos < s.tokens.length := Parser.lt_of_peek (by simp [hp])
      apply reads_advance.bind
      intro _ t hm hpos
      apply (reads_parseInterpolationParts hd (hfit.partsOk hp)).mono
      intro tree u _ h
      obtain ⟨rfl, hplaced⟩ := h
      exact treeAt_token hfit (by rwa [← hfit.stream]) (hpos hlt) hplaced
    · next name hp => exact reads_token (by simp [hp]) ⟨rfl, rfl, rfl⟩
    · next body hp =>
      have hlt : s.pos < s.tokens.length := Parser.lt_of_peek (by simp [hp])
      have hlt' : s.pos < tokens.length := by rwa [← hfit.stream]
      have hmem := hfit.mem_of_peek hp hlt'
      have hheight := heights_mem hmem
      simp only [Lexeme.token, Token.height] at hheight
      have hlow := hfit.low
      obtain ⟨whole, hwhole, hlaid⟩ := hfit.laid
      obtain ⟨r, hr, hplaced⟩ := hd.block (hlaid.expr hmem) ((hlaid.inside _ hmem).trans hwhole) (by omega)
      apply reads_advance.bind
      intro _ t hm hpos
      exact .lift hr fun tree htree => treeAt_token hfit hlt' (hpos hlt) (hplaced tree htree)
    · exact .fail
    · exact .fail
    · exact reads_parseBang hd hfit
    · next label hp =>
      have hlt : s.pos < s.tokens.length := Parser.lt_of_peek (by simp [hp])
      apply reads_advance.bind
      intro _ t hm hpos
      have hpos := hpos hlt
      apply Reads.get
      apply Reads.ite
      · intro _
        exact .pure (treeAt_bare ⟨rfl, rfl, rfl⟩ (by omega))
      · intro _
        apply (reads_capture (hfit.moves hm) (reads_parseAtom hd (hfit.moves hm))).bind
        intro payload u _ hchild
        exact .pure (treeAt_single rfl rfl rfl hchild hm.pos (le_refl _))
    · exact .fail

/-! ## Index keys -/

def KeyTree (source : Span) (tokens : List Lexeme) (a b : ℕ) (key : IndexKey Ast) : Prop :=
  ∀ tree, key = .data tree → Held tokens a b fun o => Placed source .borrowed o tree

theorem reads_parseIndexKey (hd : Sound source height level room d)
    (hfit : Fit source tokens height level room s) :
    Reads (parseIndexKey d) s fun key t => s.pos < t.pos ∧ KeyTree source tokens s.pos t.pos key := by
  have written {key : IndexKey Ast} (hp : s.peek ≠ .eof) (hkey : ∀ tree, key ≠ .data tree) :
      Reads (advance >>= fun _ => pure key) s fun key t =>
        s.pos < t.pos ∧ KeyTree source tokens s.pos t.pos key := by
    apply reads_advance.bind
    intro _ t _ hpos
    have hpos := hpos (Parser.lt_of_peek hp)
    exact .pure ⟨by omega, fun tree he => absurd he (hkey tree)⟩
  apply Reads.get
  split
  · exact .fail
  · split
    · next word hp =>
      split
      · split
        · exact written (by simp [hp]) (by simp)
        · exact .fail
      · exact .fail
      · exact written (by simp [hp]) (by simp)
    · exact .fail
    · exact .fail
    · next hp => exact written (by simp [hp]) (by simp)
    · next parts hp =>
      have hlt : s.pos < s.tokens.length := Parser.lt_of_peek (by simp [hp])
      apply reads_advance.bind
      intro _ t hm hpos
      apply (reads_parseInterpolationParts hd (hfit.partsOk hp)).bind
      intro tree u _ h
      obtain ⟨rfl, hplaced⟩ := h
      have htree := treeAt_token hfit (by rwa [← hfit.stream]) (hpos hlt) hplaced
      refine .pure ⟨htree.1, ?_⟩
      intro tree' he
      unfold keyOf at he
      split at he
      · cases he
      · cases he
        exact htree.2
    · exact .fail
    · apply (reads_parseWord hd hfit).bind
      intro tree t _ htree
      refine .pure ⟨htree.1, ?_⟩
      intro tree' he
      cases he
      exact htree.2

structure KeyHeld (source : Span) (tokens : List Lexeme) (a b : ℕ) (key : Spanned (IndexKey Ast)) :
    Prop where
  span : Held tokens a b key.span.Inside
  tree : ∀ tree, key.item = .data tree →
    Held tokens a b fun o => PlacedIn source .borrowed o ⟨key.span, tree⟩

theorem KeyHeld.widen {a b a' b' : ℕ} {key : Spanned (IndexKey Ast)} (h : KeyHeld source tokens a b key)
    (ha : a' ≤ a) (hb : b ≤ b') : KeyHeld source tokens a' b' key :=
  ⟨h.span.widen ha hb, fun tree he => (h.tree tree he).widen ha hb⟩

theorem reads_parsePostfix (hd : Sound source height level room d)
    (hfit : Fit source tokens height level room s) :
    Reads (parsePostfix d) s fun key t => s.pos < t.pos ∧ KeyHeld source tokens s.pos t.pos key := by
  apply Reads.bind (Q := fun r t => s.pos < t.pos ∧ r.1 = coverAt tokens s.pos t.pos ∧
    KeyTree source tokens s.pos t.pos r.2)
  · apply reads_captureSpan (Q := fun key t => KeyTree source tokens s.pos t.pos key) hfit
    apply reads_advance.bind
    intro _ t hm _
    apply Reads.get
    apply Reads.ite
    · intro _
      exact .fail
    · intro _
      apply (reads_parseIndexKey hd (hfit.moves hm)).bind
      intro key u hu hkey
      apply (reads_expect rfl).bind
      intro _ v _ hpos
      have hle := hm.pos
      refine .pure ⟨by omega, ?_⟩
      intro tree he
      exact (hkey.2 tree he).widen hle (by omega)
  · intro r t hm h
    obtain ⟨hlt, hspan, htree⟩ := h
    obtain ⟨whole, _, hlaid⟩ := hfit.laid
    refine .pure ⟨hlt, ⟨?_, ?_⟩⟩
    · intro i j hi hj hlen
      simp only [hspan]
      exact hlaid.cover_inside hi hlt hj hlen
    · intro tree he i j hi hj hlen
      refine ⟨?_, ?_⟩
      · simp only [hspan]
        exact hlaid.cover_inside hi hlt hj hlen
      · have hplaced := htree tree he s.pos t.pos (le_refl _) (le_refl _) (hfit.moves hm).inside
        simpa only [hspan] using hplaced

theorem reads_atomUnchecked (hd : Sound source height level room d)
    (hfit : Fit source tokens height level (room + 1) s) :
    Reads (atomUnchecked d) s (TreeAt source tokens s) := by
  apply Reads.get
  apply (reads_capture hfit (hd.primary hfit)).bind
  · intro node t hm hnode
    have htree := hnode.tree
    have hchild := hnode.2
    apply Reads.ite
    · intro _
      exact .pure htree
    · intro _
      have hfit' := hfit.narrow hm hnode.1
      apply Reads.bind (Q := fun keys u => ∀ key ∈ keys, KeyHeld source tokens s.pos u.pos key)
      · apply reads_loop (fun keys u => ∀ key ∈ keys, KeyHeld source tokens s.pos u.pos key)
        · simp
        intro keys u hu hkeys
        apply Reads.get
        apply Reads.ite
        · intro _
          apply (reads_parsePostfix hd (hfit'.moves hu)).bind
          intro key v hv hkey
          refine .pure ⟨hkey.1, ?_⟩
          intro k hmem
          rcases List.mem_append.mp hmem with hmem | hmem
          · exact (hkeys k hmem).widen (le_refl _) hv.pos
          · rw [List.mem_singleton.mp hmem]
            have hle := hm.pos
            have hle' := hu.pos
            exact hkey.2.widen (by omega) (le_refl _)
        · intro _
          exact .pure hkeys
      · intro keys u hu hkeys
        apply Reads.ite
        · intro _
          exact .pure (htree.widen (le_refl _) hu.pos)
        · intro _
          have hlt := htree.1
          have hle := hu.pos
          refine .pure (treeAt_node (by omega) ?_ ?_ ?_)
          · intro span hmem
            obtain ⟨key, hkey, rfl⟩ := List.mem_map.mp hmem
            exact (hkeys key hkey).span
          · intro child hmem
            rcases List.mem_cons.mp hmem with rfl | hmem
            · exact hchild.widen (le_refl _) hle
            · obtain ⟨key, hkey, he⟩ := List.mem_filterMap.mp hmem
              split at he
              · next tree hitem =>
                cases he
                exact (hkeys key hkey).tree tree hitem
              · cases he
          · simp [Ast.bare]

end Parse

end Ral.Syntax
