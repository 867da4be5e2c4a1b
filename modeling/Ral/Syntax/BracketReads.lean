import Ral.Core.Fallible
import Ral.Syntax.AtomReads

/-! # Readings of brackets

Every item of a bracket takes a token, and a literal places what its items place.
-/

namespace Ral.Syntax

variable {source : Span} {tokens : List Lexeme} {height level room : ℕ} {s t : Parser} {d : Descent}

namespace Parse
variable {α : Type}

theorem reads_parseBracketItems {what : Bracketed} {item : α → Parse (SepFlow × α)} {acc : α}
    (I : α → Parser → Prop) (keeps : ∀ acc t u, Moves s t → Moves t u → I acc t → I acc u)
    (init : I acc s)
    (hitem : ∀ acc t, Moves s t → I acc t → Reads (item acc) t fun r u => t.pos < u.pos ∧ I r.2 u) :
    Reads (parseBracketItems what item acc) s fun acc t => s.pos < t.pos ∧ I acc t := by
  apply reads_loop I init
  intro acc t hm hinv
  have hle := hm.pos
  apply (reads_eat rfl).bind
  intro closed u hu heat
  apply Reads.ite
  · intro hclosed
    have hpos := (heat.1 hclosed).2
    exact .pure ⟨by omega, keeps acc t u hm hu hinv⟩
  · intro hclosed
    have he := heat.2 (by simpa using hclosed)
    subst he
    apply Reads.get
    apply Reads.ite
    · intro _
      exact .fail
    · intro _
      apply (hitem acc u hm hinv).bind
      intro r v hv hr
      obtain ⟨flow, acc⟩ := r
      obtain ⟨hlt, hinv⟩ := hr
      cases flow with
      | cont =>
        apply (reads_eat rfl).bind
        intro comma w hw _
        have hle' := hw.pos
        apply Reads.get
        apply Reads.ite
        · intro _
          exact .fail
        · intro _
          exact .pure ⟨by omega, keeps acc v w (hm.trans hv) hw hinv⟩
      | stop =>
        apply (reads_eat rfl).bind
        intro _ w hw _
        apply (reads_expect rfl).bind
        intro _ x hx hpos
        have hle' := hw.pos
        exact .pure ⟨by omega, keeps acc v x (hm.trans hv) (hw.trans hx) hinv⟩

/-! ## Patterns -/

theorem reads_parseStaticKey : Reads parseStaticKey s fun _ t => s.pos < t.pos := by
  have written {key : String} (hp : s.peek ≠ .eof) :
      Reads (advance >>= fun _ => pure key) s fun _ t => s.pos < t.pos := by
    apply reads_advance.bind
    intro _ t _ hpos
    have hpos := hpos (Parser.lt_of_peek hp)
    exact .pure (by omega)
  apply Reads.get
  dsimp only
  split
  · next hp =>
    apply Reads.ite
    · intro _
      exact written (by simp [hp])
    · intro _
      exact .fail
  · next hp => exact written (by simp [hp])
  · next hp =>
    split
    · exact written (by simp [hp])
    · exact .fail
  · exact .fail
  · exact .fail

theorem reads_parseRest : Reads parseRest s fun _ _ => True := by
  apply reads_attached.bind
  intro _ t _ _
  apply Reads.get
  split
  · apply Reads.ite
    · intro _
      exact .fail
    · intro _
      apply Reads.ite
      · intro _
        exact .fail
      · intro _
        apply reads_advance.bind
        intro _ u _ _
        apply Reads.get
        apply Reads.ite
        · intro _
          exact .pure trivial
        · intro _
          exact .fail
  · exact .fail

theorem reads_parseListPattern (hd : Sound source height level room d)
    (hfit : Fit source tokens height level room s) :
    Reads (parseListPattern d) s fun _ t => s.pos < t.pos := by
  apply Reads.bind (Q := fun _ t => s.pos < t.pos ∧ True)
  · apply reads_parseBracketItems (fun _ _ => True) (fun _ _ _ _ _ _ => trivial) trivial
    intro items t hm _
    apply (reads_eat rfl).bind
    intro spread u hu heat
    apply Reads.ite
    · intro hspread
      have hpos := (heat.1 hspread).2
      apply reads_parseRest.bind
      intro name v hv _
      have hle := hv.pos
      exact .pure ⟨by omega, trivial⟩
    · intro hspread
      have he := heat.2 (by simpa using hspread)
      subst he
      apply (hd.pattern (hfit.moves hm)).bind
      intro elem v hv hlt
      apply Reads.get
      apply Reads.ite
      · intro _
        exact .fail
      · intro _
        exact .pure ⟨hlt, trivial⟩
  · intro items t _ h
    exact .pure h.1

theorem reads_parseRecordPattern (hd : Sound source height level room d)
    (hfit : Fit source tokens height level room s) :
    Reads (parseRecordPattern d) s fun _ t => s.pos < t.pos := by
  apply Reads.bind (Q := fun _ t => s.pos < t.pos ∧ True)
  · apply reads_parseBracketItems (fun _ _ => True) (fun _ _ _ _ _ _ => trivial) trivial
    intro entries t hm _
    have hfit' := hfit.moves hm
    apply (reads_captureSpan (Q := fun _ _ => True) hfit'
      (reads_parseStaticKey.mono fun _ _ _ h => ⟨h, trivial⟩)).bind
    intro key u hu hkey
    apply Reads.ite
    · intro _
      exact .fail
    · intro _
      apply (reads_expect rfl).bind
      intro _ v hv hpos
      apply (hd.pattern ((hfit'.moves hu).moves hv)).bind
      intro pattern w hw hlt
      have hlt' := hkey.1
      exact .pure ⟨by omega, trivial⟩
  · intro entries t _ h
    exact .pure h.1

theorem reads_parsePatternInner (hd : Sound source height level room d)
    (hfit : Fit source tokens height level room s) :
    Reads (parsePatternInner d) s fun _ t => s.pos < t.pos := by
  apply (reads_expect rfl).bind
  intro _ t ht hpos
  apply (reads_eat rfl).bind
  intro empty u hu _
  have hle := hu.pos
  have hfit' := (hfit.moves ht).moves hu
  apply Reads.ite
  · intro _
    exact .pure (by omega)
  · intro _
    apply Reads.get
    apply Reads.ite
    · intro _
      exact (reads_parseRecordPattern hd hfit').mono fun _ v _ h => by omega
    · intro _
      exact (reads_parseListPattern hd hfit').mono fun _ v _ h => by omega

theorem reads_patternBody (hd : Sound source height level room d)
    (hfit : Fit source tokens height level room s) :
    Reads (patternBody d) s fun _ t => s.pos < t.pos := by
  have written {pattern : Ir.Pattern} (hp : s.peek ≠ .eof) :
      Reads (advance >>= fun _ => pure pattern) s fun _ t => s.pos < t.pos := by
    apply reads_advance.bind
    intro _ t _ hpos
    have hpos := hpos (Parser.lt_of_peek hp)
    exact .pure (by omega)
  apply Reads.get
  dsimp only
  split
  · exact reads_parsePatternInner hd hfit
  · next hp =>
    apply Reads.ite
    · intro _
      exact written (by simp [hp])
    · intro _
      apply Reads.ite
      · intro _
        exact .fail
      · intro _
        apply Reads.ite
        · intro _
          exact written (by simp [hp])
        · intro _
          exact .fail
  · exact .fail

theorem reads_parseBinder (hd : Sound source height level room d)
    (hfit : Fit source tokens height level room s) :
    Reads (parseBinder d) s fun binder t => MarkAt tokens s binder.span t := by
  apply (reads_captureMark (Q := fun _ _ => True) hfit
    ((hd.pattern hfit).mono fun _ _ _ h => ⟨h, trivial⟩)).bind
  intro pattern t _ h
  split
  · exact .fail
  · exact .pure h.1

end Parse

/-! ## Literals -/

def MapKeyForm.In (source outer : Span) : MapKeyForm → Prop
  | .label key => key.span.Inside outer
  | .data key => PlacedIn source .borrowed outer key

def CollectionItem.In (source outer : Span) : CollectionItem → Prop
  | .spread tree => PlacedIn source .borrowed outer tree
  | .elem tree => PlacedIn source .borrowed outer tree
  | .entry key value => key.In source outer ∧ PlacedIn source .borrowed outer value

def Literal.tree : Literal → Ast
  | .list elems => .list elems
  | .record entries => .record entries
  | .map entries => .map entries

structure Literal.In (source outer : Span) (literal : Literal) : Prop where
  marks : ∀ span ∈ literal.tree.marks, span.Inside outer
  spanned : ∀ child ∈ literal.tree.spanned, PlacedIn source .borrowed outer child

section Literals
variable {outer : Span}

theorem MapKeyForm.In.intoAst {key : MapKeyForm} (h : key.In source outer) :
    PlacedIn source .borrowed outer key.intoAst := by
  cases key with
  | label key => exact ⟨h, .of_bare ⟨rfl, rfl, rfl⟩⟩
  | data key => exact h

/-- A list among whose elements entries come holds spreads only. -/
theorem liftElems_in {elems : List (ListElem Ast)} {items : List (RecordEntry Ast)}
    (h : liftElems elems = .ok items)
    (hin : ∀ child ∈ (Ast.list elems).spanned, PlacedIn source .borrowed outer child) :
    (Literal.record items).In source outer := by
  induction elems generalizing items with
  | nil =>
    cases h
    exact ⟨by simp [Literal.tree, Ast.marks_record], by simp [Literal.tree, Ast.spanned_record]⟩
  | cons elem elems ih =>
    cases elem with
    | single a => cases h
    | spread a =>
      obtain ⟨rest, hrest, rfl⟩ := Fallible.map_eq_ok.mp h
      have hin' := ih hrest fun child hmem => hin child (by
        simp only [Ast.spanned_list, List.map_cons, List.mem_cons]
        exact Or.inr hmem)
      constructor
      · exact hin'.marks
      · intro child hmem
        rcases List.mem_cons.mp hmem with rfl | hmem
        · exact hin _ List.mem_cons_self
        · exact hin'.spanned child hmem

theorem liftEntry_in {items : List (RecordEntry Ast)} (h : (Literal.record items).In source outer) :
    (Literal.map (items.map liftEntry)).In source outer := by
  constructor
  · simp [Literal.tree]
  · induction items with
    | nil => simp [Literal.tree, Ast.spanned_map]
    | cons item items ih =>
      have hrest : (Literal.record items).In source outer := by
        constructor
        · intro span hmem
          apply h.marks
          cases item with
          | field key value => exact List.mem_cons_of_mem _ hmem
          | spread a => exact hmem
        · exact fun child hmem => h.spanned child (List.mem_cons_of_mem _ hmem)
      intro child hmem
      simp only [Literal.tree, Ast.spanned_map, List.map_cons, List.flatMap_cons, List.mem_append] at hmem
      rcases hmem with hmem | hmem
      · cases item with
        | field key value =>
          rcases List.mem_cons.mp hmem with rfl | hmem
          · exact ⟨h.marks _ List.mem_cons_self, .of_bare ⟨rfl, rfl, rfl⟩⟩
          · rw [List.mem_singleton.mp hmem]
            exact h.spanned _ List.mem_cons_self
        | spread a =>
          rw [List.mem_singleton.mp hmem]
          exact h.spanned _ List.mem_cons_self
      · exact ih hrest child hmem

theorem Literal.In.elem {elems : List (ListElem Ast)} {elem : ListElem Ast} {a : Spanned Ast}
    (h : (Literal.list elems).In source outer) (ha : PlacedIn source .borrowed outer a)
    (helem : (Ast.list [elem]).spanned = [a]) : (Literal.list (elems ++ [elem])).In source outer := by
  refine ⟨by simp [Literal.tree], ?_⟩
  intro child hmem
  simp only [Literal.tree, Ast.spanned_list, List.map_append, List.mem_append] at hmem
  rcases hmem with hmem | hmem
  · exact h.spanned child hmem
  · have hchild : child ∈ (Ast.list [elem]).spanned := hmem
    rw [helem, List.mem_singleton] at hchild
    exact hchild ▸ ha

theorem Literal.In.recordEntry {entries : List (RecordEntry Ast)} {entry : RecordEntry Ast}
    (h : (Literal.record entries).In source outer)
    (hmarks : ∀ span ∈ (Ast.record [entry]).marks, span.Inside outer)
    (hspanned : ∀ child ∈ (Ast.record [entry]).spanned, PlacedIn source .borrowed outer child) :
    (Literal.record (entries ++ [entry])).In source outer := by
  constructor
  · intro span hmem
    simp only [Literal.tree, Ast.marks_record, List.filterMap_append, List.mem_append] at hmem
    rcases hmem with hmem | hmem
    · exact h.marks span hmem
    · exact hmarks span hmem
  · intro child hmem
    simp only [Literal.tree, Ast.spanned_record, List.map_append, List.mem_append] at hmem
    rcases hmem with hmem | hmem
    · exact h.spanned child hmem
    · exact hspanned child hmem

theorem Literal.In.mapEntry {entries : List (MapEntry Ast)} {entry : MapEntry Ast}
    (h : (Literal.map entries).In source outer)
    (hspanned : ∀ child ∈ (Ast.map [entry]).spanned, PlacedIn source .borrowed outer child) :
    (Literal.map (entries ++ [entry])).In source outer := by
  refine ⟨by simp [Literal.tree], ?_⟩
  intro child hmem
  simp only [Literal.tree, Ast.spanned_map, List.flatMap_append, List.mem_append] at hmem
  rcases hmem with hmem | hmem
  · exact h.spanned child hmem
  · exact hspanned child hmem

theorem Literal.In.push {literal literal' : Literal} {item : CollectionItem}
    (h : literal.In source outer) (hitem : item.In source outer) (hpush : literal.push item = .ok literal') :
    literal'.In source outer := by
  have field {entries : List (RecordEntry Ast)} {key : Spanned String} {value : Spanned Ast}
      (h : (Literal.record entries).In source outer) (hkey : key.span.Inside outer)
      (hvalue : PlacedIn source .borrowed outer value) :
      (Literal.record (entries ++ [.field key value])).In source outer :=
    h.recordEntry (by simpa [Ast.marks_record] using hkey) (by simpa [Ast.spanned_record] using hvalue)
  have entry {entries : List (MapEntry Ast)} {key value : Spanned Ast}
      (h : (Literal.map entries).In source outer) (hkey : PlacedIn source .borrowed outer key)
      (hvalue : PlacedIn source .borrowed outer value) :
      (Literal.map (entries ++ [.entry key value])).In source outer :=
    h.mapEntry (by simpa [Ast.spanned_map] using ⟨hkey, hvalue⟩)
  cases literal with
  | list elems =>
    cases item with
    | spread a =>
      cases hpush
      exact h.elem hitem rfl
    | elem a =>
      cases hpush
      exact h.elem hitem rfl
    | entry key value =>
      obtain ⟨hkey, hvalue⟩ := hitem
      cases key with
      | label key =>
        obtain ⟨items, hitems, rfl⟩ := Fallible.map_eq_ok.mp hpush
        exact field (liftElems_in hitems h.spanned) hkey hvalue
      | data key =>
        obtain ⟨items, hitems, rfl⟩ := Fallible.map_eq_ok.mp hpush
        exact entry (liftEntry_in (liftElems_in hitems h.spanned)) hkey hvalue
  | record entries =>
    cases item with
    | spread a =>
      cases hpush
      have ha : PlacedIn source .borrowed outer a := hitem
      exact h.recordEntry (by simp [Ast.marks_record]) (by simpa [Ast.spanned_record] using ha)
    | elem a => cases hpush
    | entry key value =>
      obtain ⟨hkey, hvalue⟩ := hitem
      cases key with
      | label key =>
        cases hpush
        exact field h hkey hvalue
      | data key =>
        cases hpush
        exact entry (liftEntry_in h) hkey hvalue
  | map entries =>
    cases item with
    | spread a =>
      cases hpush
      have ha : PlacedIn source .borrowed outer a := hitem
      exact h.mapEntry (by simpa [Ast.spanned_map] using ha)
    | elem a => cases hpush
    | entry key value =>
      obtain ⟨hkey, hvalue⟩ := hitem
      cases hpush
      exact entry h hkey.intoAst hvalue

theorem Literal.intoAst_eq {literal : Literal} {tree : Ast} (h : literal.intoAst = .ok tree) :
    tree = literal.tree := by
  cases literal with
  | list elems => cases h; rfl
  | map entries => cases h; rfl
  | record entries =>
    change recordLiteral entries = .ok tree at h
    unfold recordLiteral at h
    split at h
    · cases h
    · split at h
      · cases h
      · cases h
        rfl
    · cases h
      rfl

theorem Literal.In.placed {literal : Literal} {tree : Ast} (h : literal.In source outer)
    (htree : literal.intoAst = .ok tree) : Placed source .borrowed outer tree := by
  rw [Literal.intoAst_eq htree]
  apply Placed.of_children h.marks h.spanned
  cases literal <;> simp [Literal.tree, Ast.bare]

theorem placed_of_items {items : List CollectionItem} {initial : Literal} {tree : Ast}
    (hinitial : initial.In source outer) (hitems : ∀ item ∈ items, item.In source outer)
    (h : (items.foldlM Literal.push initial).bind Literal.intoAst = .ok tree) :
    Placed source .borrowed outer tree := by
  obtain ⟨literal, hfold, htree⟩ := Fallible.bind_eq_ok.mp h
  have hin := Fallible.foldlM_invariant (P := fun literal => literal.In source outer)
    (Q := fun item => CollectionItem.In source outer item) (fun hl hi hpush => hl.push hi hpush)
    hitems hinitial hfold
  exact hin.placed htree

end Literals

namespace Parse

/-! ## Collections -/

theorem reads_spannedMark {α : Type} (hfit : Fit source tokens height level room s) {x : Parse α}
    (h : Reads x s fun _ t => s.pos < t.pos) :
    Reads (spanned x) s fun r t => MarkAt tokens s r.span t := by
  apply (reads_captureMark (Q := fun _ _ => True) hfit (h.mono fun _ _ _ h => ⟨h, trivial⟩)).bind
  intro r t _ hr
  exact .pure hr.1

theorem reads_parseMapKey (hd : Sound source height level room d)
    (hfit : Fit source tokens height level room s) :
    Reads (parseMapKey d) s fun key t =>
      s.pos < t.pos ∧ Held tokens s.pos t.pos fun o => key.In source o := by
  have written : Reads (do
      let key ← spanned parseStaticKey
      pure (MapKeyForm.label key)) s fun key t =>
        s.pos < t.pos ∧ Held tokens s.pos t.pos fun o => key.In source o := by
    apply (reads_spannedMark hfit reads_parseStaticKey).bind
    intro key t _ hkey
    exact .pure hkey
  have data {x : Parse Ast} (hx : Reads x s (TreeAt source tokens s)) : Reads (do
      let key ← spanned x
      pure (MapKeyForm.data key)) s fun key t =>
        s.pos < t.pos ∧ Held tokens s.pos t.pos fun o => key.In source o := by
    apply (reads_spanned hfit hx).bind
    intro key t _ hkey
    exact .pure hkey
  apply Reads.get
  dsimp only
  split
  · next parts hp =>
    apply Reads.ite
    · intro _
      apply data
      have hlt : s.pos < s.tokens.length := Parser.lt_of_peek (by simp [hp])
      apply reads_advance.bind
      intro _ t _ hpos
      apply (reads_parseInterpolationParts hd (hfit.partsOk hp)).mono
      intro tree u _ h
      obtain ⟨rfl, hplaced⟩ := h
      exact treeAt_token hfit (by rwa [← hfit.stream]) (hpos hlt) hplaced
    · intro _
      exact written
  · exact written
  · exact written
  · apply Reads.ite
    · intro _
      exact written
    · intro _
      apply Reads.ite
      · intro _
        exact .fail
      · intro _
        exact .fail
  · next hp => exact data (reads_token (by simp [hp]) ⟨rfl, rfl, rfl⟩)
  · exact .fail

theorem reads_parseEntryValue (hd : Sound source height level room d)
    (hfit : Fit source tokens height level room s) :
    Reads (parseEntryValue d) s (ChildAt source tokens s) := by
  apply Reads.get
  apply (reads_capture hfit (reads_parseAtom hd hfit)).bind
  intro value t hm hvalue
  apply Reads.get
  apply Reads.ite
  · intro _
    exact .pure hvalue
  · intro _
    have hlt := hvalue.1
    have hinside := (hfit.moves hm).inside
    have hahead : s.pos < s.tokens.length := by
      rw [hfit.stream]
      omega
    rw [List.getElem?_eq_getElem hahead]
    exact .fail

theorem reads_parseCollectionItem (hd : Sound source height level room d)
    (hfit : Fit source tokens height level room s) :
    Reads (parseCollectionItem d) s fun item t =>
      s.pos < t.pos ∧ Held tokens s.pos t.pos fun o => item.In source o := by
  have elem {u : Parser} (hu : Fit source tokens height level room u) : Reads (do
      let value ← parseEntryValue d
      pure (CollectionItem.elem value)) u fun item t =>
        u.pos < t.pos ∧ Held tokens u.pos t.pos fun o => item.In source o := by
    apply (reads_parseEntryValue hd hu).bind
    intro value t _ hvalue
    exact .pure hvalue
  apply (reads_eat rfl).bind
  intro spread t hm heat
  apply Reads.ite
  · intro hspread
    have hpos := (heat.1 hspread).2
    apply reads_attached.bind
    intro _ u _ he
    subst he
    apply (reads_parseEntryValue hd (hfit.moves hm)).bind
    intro value v _ hvalue
    have hlt := hvalue.1
    exact .pure ⟨by omega, hvalue.2.widen (by omega) (le_refl _)⟩
  · intro hspread
    have he := heat.2 (by simpa using hspread)
    subst he
    apply Reads.get
    apply Reads.ite
    · intro _
      apply (reads_parseMapKey hd hfit).bind
      intro key u hu hkey
      apply (reads_expect rfl).bind
      intro _ v hv hpos
      apply Reads.get
      apply Reads.ite
      · intro _
        exact .fail
      · intro _
        apply (reads_parseEntryValue hd ((hfit.moves hu).moves hv)).bind
        intro value w hw hvalue
        have hlt := hkey.1
        have hlt' := hvalue.1
        refine .pure ⟨by omega, ?_⟩
        intro i j hi hj hlen
        exact ⟨hkey.2 i j hi (by omega) hlen, hvalue.2 i j (by omega) hj hlen⟩
    · intro _
      split
      · apply Reads.ite
        · intro _
          exact .fail
        · intro _
          exact elem hfit
      · exact elem hfit

theorem reads_parseItems (hd : Sound source height level room d) {what : Bracketed}
    (hfit : Fit source tokens height level room s) :
    Reads (parseItems d what) s fun items t =>
      s.pos < t.pos ∧ ∀ item ∈ items, Held tokens s.pos t.pos fun o => item.In source o := by
  apply reads_parseBracketItems fun items t =>
    ∀ item ∈ items, Held tokens s.pos t.pos fun o => CollectionItem.In source o item
  · intro items t u _ hu h item hmem
    exact (h item hmem).widen (le_refl _) hu.pos
  · simp
  · intro items t hm h
    apply (reads_parseCollectionItem hd (hfit.moves hm)).bind
    intro item u hu hitem
    refine .pure ⟨hitem.1, ?_⟩
    intro x hmem
    rcases List.mem_append.mp hmem with hmem | hmem
    · exact (h x hmem).widen (le_refl _) hu.pos
    · rw [List.mem_singleton.mp hmem]
      exact hitem.2.widen hm.pos (le_refl _)

theorem reads_parseOpening : Reads parseOpening s fun opening _ =>
    (∀ tree, opening.1 = some tree → tree.Bare) ∧ ∀ outer, opening.2.In source outer := by
  have empty (outer : Span) : (Literal.map []).In source outer :=
    ⟨by simp [Literal.tree], by simp [Literal.tree, Ast.spanned_map]⟩
  apply (reads_eat rfl).bind
  intro colon t _ _
  apply Reads.ite
  · intro _
    apply (reads_eat rfl).bind
    intro closed u _ _
    apply Reads.ite
    · intro _
      refine .pure ⟨?_, empty⟩
      intro tree he
      cases he
      exact ⟨rfl, rfl, rfl⟩
    · intro _
      apply (reads_eat rfl).bind
      intro comma v _ _
      apply Reads.get
      apply Reads.ite
      · intro _
        exact .fail
      · intro _
        apply Reads.ite
        · intro _
          exact .fail
        · intro _
          exact .pure ⟨by simp, empty⟩
  · intro _
    refine .pure ⟨by simp, ?_⟩
    exact fun outer => ⟨by simp [Literal.tree], by simp [Literal.tree, Ast.spanned_list]⟩

theorem reads_parseCollection (hd : Sound source height level room d)
    (hfit : Fit source tokens height level room s) :
    Reads (parseCollection d) s (TreeAt source tokens s) := by
  apply (reads_expect rfl).bind
  intro _ t ht hpos
  apply (reads_eat rfl).bind
  intro empty u hu _
  have hle := hu.pos
  apply Reads.ite
  · intro _
    exact .pure (treeAt_bare ⟨rfl, rfl, rfl⟩ (by omega))
  · intro _
    apply (@reads_parseOpening source _).bind
    intro opening v hv hopening
    obtain ⟨whole, initial⟩ := opening
    obtain ⟨hwhole, hinitial⟩ := hopening
    have hle' := hv.pos
    cases whole with
    | some tree => exact .pure (treeAt_bare (hwhole tree rfl) (by omega))
    | none =>
      apply (reads_parseItems hd (((hfit.moves ht).moves hu).moves hv)).bind
      intro items w hw hitems
      have hlt := hitems.1
      apply Reads.ofExcept
      intro tree htree
      refine ⟨by omega, ?_⟩
      intro i j hi hj hlen
      apply placed_of_items (hinitial _) _ htree
      intro item hmem
      exact hitems.2 item hmem i j (by omega) hj hlen

end Parse

end Ral.Syntax
