import Mathlib.Data.Fintype.Card
import Ral.Authority.Stack
import Ral.Path.Widening

/-! # Extending a layer by a fragment

An axis a layer omits restricts nothing, and one a fragment omits states nothing. Extension
collects the evidence of both on every axis; an axis is the top exactly when it permits
whatever it is asked.
-/

namespace Ral.Authority
open Ral.Path

/-! ## Axes -/

/-- A resolved policy for one effect, as a fragment over the unrestricted one. -/
class Axis (T : Type) (S : outParam Type) where
  join : T → T → T
  /-- Over the omitted axis; `none`, which restricts nothing, where omission loses nothing. -/
  joinTop : T → Option T
  isTop : T → Bool
  evidence : T → S → Evidence

/-- What extension and the top test rest on, of the policies the code makes. -/
class LawfulAxis (T : Type) {S : outParam Type} [Axis T S] where
  Formed : T → Prop
  formed_join : ∀ {a b : T}, Formed a → Formed b → Formed (Axis.join a b)
  formed_joinTop : ∀ {a b : T}, Formed a → Axis.joinTop a = some b → Formed b
  evidence_join : ∀ (a b : T) (s : S),
    Axis.evidence (Axis.join a b) s = (Axis.evidence a s).join (Axis.evidence b s)
  evidence_joinTop : ∀ {a : T}, Formed a → ∀ s : S,
    (Axis.joinTop a).elim .allow (fun b => Axis.evidence b s) = Evidence.allow.join (Axis.evidence a s)
  isTop_iff : ∀ {a : T}, Formed a → (Axis.isTop a = true ↔ ∀ s : S, (Axis.evidence a s).permits = true)

def extendAxis {T S : Type} [Axis T S] : Option T → Option T → Option T
  | base, none => base
  | none, some fragment => Axis.joinTop fragment
  | some base, some fragment => some (Axis.join base fragment)

namespace Axis

variable {T S : Type} [Axis T S]

/-- Of a layer: an omitted axis restricts nothing. -/
def ofLayer (axis : Option T) (s : S) : Evidence := axis.elim .allow fun a => evidence a s

/-- Of a fragment: an omitted axis states nothing. -/
def ofFragment (axis : Option T) (s : S) : Evidence := axis.elim .neither fun a => evidence a s

def Forms [LawfulAxis T] (axis : Option T) : Prop := ∀ a ∈ axis, LawfulAxis.Formed a

theorem isTop_iff_ofLayer [LawfulAxis T] {axis : Option T} (h : Forms axis) {a : T} (ha : axis = some a) :
    isTop a = true ↔ ∀ s : S, (ofLayer axis s).permits = true := by
  subst ha
  exact LawfulAxis.isTop_iff (h a rfl)

theorem ofLayer_extend [LawfulAxis T] {base fragment : Option T} (hf : Forms fragment) (s : S) :
    ofLayer (extendAxis base fragment) s = (ofLayer base s).join (ofFragment fragment s) := by
  cases fragment with
  | none => exact (Evidence.join_neither _).symm
  | some f =>
    cases base with
    | none => exact LawfulAxis.evidence_joinTop (hf f rfl) s
    | some b => exact LawfulAxis.evidence_join b f s

end Axis

/-! ## The axes of a layer -/

section Axes
variable [Host]

/-- Writing reads, against the same exclusions, and only the read table holds a place. -/
structure FsLayer.Formed (l : FsLayer) : Prop where
  reads : l.write.allows ⊆ l.read.allows
  denies : l.read.denies = l.write.denies
  prefixes : ∀ a ∈ l.write.allows, ∃ path, a = .under path

omit [Host] in
theorem FsLayer.formed_new (read write : List (GrantPath Extent)) (deny : List (GrantPath Excluded)) :
    (FsLayer.new read write deny).Formed := by
  refine ⟨Finset.subset_union_right, rfl, fun a ha => ?_⟩
  obtain ⟨path, -, rfl⟩ := List.mem_map.mp (List.mem_toFinset.mp ha)
  exact ⟨path, rfl⟩

def FsLayer.join (l m : FsLayer) : FsLayer := ⟨l.read.join m.read, l.write.join m.write⟩

/-- A fragment of exclusions: everywhere, less them. -/
def FsLayer.joinTop (l : FsLayer) : Option FsLayer :=
  if l.write.denies = ∅ then none else some ⟨l.read.join FsRules.top, l.write.join FsRules.top⟩

def FsAllow.isEverywhere : FsAllow → Bool
  | .under path => path.real = .everywhere
  | .runPlace _ => false

/-- Writing everywhere reads everywhere too. -/
def FsLayer.isTop (l : FsLayer) : Bool :=
  decide (l.write.denies = ∅) && decide (∃ a ∈ l.write.allows, a.isEverywhere = true)

instance : Axis FsLayer (FsOp × Subject) where
  join := FsLayer.join
  joinTop := FsLayer.joinTop
  isTop := FsLayer.isTop
  evidence l s := (l.table s.1).evidence s.2

omit [Host] in
theorem Table.excludes_of_denies_empty {A D S : Type} [Denies D S] {t : Table A D} (h : t.denies = ∅) (s : S) :
    t.excludes s = false := by
  simp [Table.excludes, h]

theorem FsAllow.isEverywhere_iff (a : FsAllow) : a.isEverywhere = true ↔ Allows.contains a Subject.everywhere = true := by
  cases a with
  | runPlace place => simp [isEverywhere, Allows.contains, Subject.beneath, Subject.position?]
  | under path =>
    cases h : path.real <;> simp [isEverywhere, Allows.contains, Extent.contains, h, Subject.beneath, Subject.position?]

theorem FsAllow.contains_of_isEverywhere {a : FsAllow} (h : a.isEverywhere = true) (s : Subject) :
    Allows.contains a s = true := by
  cases a with
  | runPlace place => simp [isEverywhere] at h
  | under path =>
    simp only [isEverywhere, decide_eq_true_eq] at h
    simp [Allows.contains, h, Extent.contains]

theorem FsRules.denies_empty {t : FsRules} (h : ∀ s : Subject, t.excludes s = false) : t.denies = ∅ := by
  rw [Finset.eq_empty_iff_forall_notMem]
  intro d hd
  have hexcluded : t.excludes (.access d.path.real.named.trace) = true :=
    Table.excludes_iff.mpr ⟨d, hd, Excluded.matched_own d.path.real .within⟩
  rw [h] at hexcluded
  cases hexcluded

instance : LawfulAxis FsLayer where
  Formed := FsLayer.Formed
  formed_join := by
    intro a b ha hb
    constructor
    · exact Finset.union_subset_union ha.reads hb.reads
    · show a.read.denies ∪ b.read.denies = a.write.denies ∪ b.write.denies
      rw [ha.denies, hb.denies]
    · intro c hc
      rcases Finset.mem_union.mp hc with hc | hc
      · exact ha.prefixes c hc
      · exact hb.prefixes c hc
  formed_joinTop := by
    intro a b ha hab
    have hjoin : ∀ l : FsLayer, a.joinTop = some l → l.Formed := by
      intro l hl
      unfold FsLayer.joinTop at hl
      split at hl
      · cases hl
      · cases hl
        constructor
        · exact Finset.union_subset_union ha.reads (Finset.Subset.refl _)
        · show a.read.denies ∪ _ = a.write.denies ∪ _
          rw [ha.denies]
        · intro c hc
          rcases Finset.mem_union.mp hc with hc | hc
          · exact ha.prefixes c hc
          · exact ⟨.everywhere, by simpa [FsRules.top] using hc⟩
    exact hjoin b hab
  evidence_join := by
    rintro a b ⟨op, s⟩
    cases op <;> exact Table.evidence_join
  evidence_joinTop := by
    rintro a ha ⟨op, s⟩
    show (a.joinTop).elim _ (fun b => (b.table op).evidence s) = _
    unfold FsLayer.joinTop
    split
    · next hempty =>
        have hnone : (a.table op).excludes s = false := by
          apply Table.excludes_of_denies_empty
          cases op
          · exact ha.denies.trans hempty
          · exact hempty
        show Evidence.allow = Evidence.allow.join ((a.table op).evidence s)
        simp [Table.evidence, hnone, Evidence.join, Evidence.allow]
    · have hboth : (FsLayer.mk (a.read.join FsRules.top) (a.write.join FsRules.top)).table op =
          (a.table op).join FsRules.top := by cases op <;> rfl
      show (FsLayer.table _ op).evidence s = Evidence.allow.join ((a.table op).evidence s)
      rw [hboth, Table.evidence_join, FsRules.evidence_top, Evidence.join_comm]
  isTop_iff := by
    intro a ha
    show (decide (a.write.denies = ∅) && decide (∃ b ∈ a.write.allows, b.isEverywhere = true)) = true ↔ _
    rw [Bool.and_eq_true, decide_eq_true_eq, decide_eq_true_eq]
    constructor
    · rintro ⟨hempty, b, hb, heverywhere⟩ ⟨op, s⟩
      have hmem : b ∈ (a.table op).allows := by
        cases op
        · exact ha.reads hb
        · exact hb
      have hdenies : (a.table op).denies = ∅ := by
        cases op
        · exact ha.denies.trans hempty
        · exact hempty
      exact Table.evidence_permits.mpr ⟨Table.supports_of_mem hmem (FsAllow.contains_of_isEverywhere heverywhere s),
        Table.excludes_of_denies_empty hdenies s⟩
    · intro hall
      have hwrite : ∀ s, a.write.supports s = true ∧ a.write.excludes s = false := fun s =>
        Table.evidence_permits.mp (hall (.write, s))
      refine ⟨FsRules.denies_empty fun s => (hwrite s).2, ?_⟩
      obtain ⟨b, hb, hcontains⟩ := Table.supports_iff.mp (hwrite .everywhere).1
      exact ⟨b, hb, b.isEverywhere_iff.mpr hcontains⟩

def ExecRules.Keyed (r : ExecRules) : Prop := ∀ key, ExecDeny.name key ∈ r.denies → ∃ name, key = commandNameKey name

def ExecRules.joinTop (r : ExecRules) : Option ExecRules :=
  if r.allows = ∅ ∧ r.denies = ∅ then none else some (r.join ExecRules.top)

def ExecRules.isTop (r : ExecRules) : Bool := decide (ExecAllow.any ∈ r.allows) && decide (r.denies = ∅)

instance : Axis ExecRules ExecSubject where
  join := Table.join
  joinTop := ExecRules.joinTop
  isTop := ExecRules.isTop
  evidence r s := r.evidence s

theorem ExecRules.denies_empty {r : ExecRules} (hr : r.Keyed) (h : ∀ s : ExecSubject, r.excludes s = false) :
    r.denies = ∅ := by
  rw [Finset.eq_empty_iff_forall_notMem]
  intro d hd
  have hnot : ∀ s : ExecSubject, ¬ (Denies.matched d s).isSome = true := by
    intro s hs
    have hexcluded : r.excludes s = true := Table.excludes_iff.mpr ⟨d, hd, hs⟩
    rw [h] at hexcluded
    cases hexcluded
  cases d with
  | dir path => exact hnot (.dir (.access path.real.named.trace)) (Excluded.matched_own path.real .within)
  | file path => exact hnot (.program (.access path.real.named.trace)) (Excluded.matched_own path.real .exact)
  | name key =>
    obtain ⟨name, hkey⟩ := hr key hd
    apply hnot (.tool name)
    simp [Denies.matched, vetoes, hkey]

instance : LawfulAxis ExecRules where
  Formed := ExecRules.Keyed
  formed_join := by
    intro a b ha hb key hkey
    rcases Finset.mem_union.mp hkey with hkey | hkey
    · exact ha key hkey
    · exact hb key hkey
  formed_joinTop := by
    intro a b ha hab
    have hjoin : ∀ r : ExecRules, a.joinTop = some r → r.Keyed := by
      intro r hr
      unfold ExecRules.joinTop at hr
      split at hr
      · cases hr
      · cases hr
        intro key hkey
        rcases Finset.mem_union.mp hkey with hkey | hkey
        · exact ha key hkey
        · simp [ExecRules.top] at hkey
    exact hjoin b hab
  evidence_join := fun a b s => Table.evidence_join
  evidence_joinTop := by
    intro a ha s
    show (a.joinTop).elim _ (fun b => b.evidence s) = Evidence.allow.join (a.evidence s)
    unfold ExecRules.joinTop
    split
    · next hempty => simp [Table.evidence, Table.supports, Table.excludes, hempty.1, hempty.2, Evidence.join, Evidence.allow]
    · show (a.join ExecRules.top).evidence s = _
      rw [Table.evidence_join, ExecRules.evidence_top, Evidence.join_comm]
  isTop_iff := by
    intro a ha
    show (decide (ExecAllow.any ∈ a.allows) && decide (a.denies = ∅)) = true ↔ ∀ s, (a.evidence s).permits = true
    rw [Bool.and_eq_true, decide_eq_true_eq, decide_eq_true_eq]
    constructor
    · rintro ⟨hany, hempty⟩ s
      exact Table.evidence_permits.mpr ⟨Table.supports_of_mem hany (ExecAllow.contains_any s),
        Table.excludes_of_denies_empty hempty s⟩
    · intro hall
      refine ⟨?_, ExecRules.denies_empty ha fun s => (Table.evidence_permits.mp (hall s)).2⟩
      obtain ⟨b, hb, hcontains⟩ := Table.supports_iff.mp (Table.evidence_permits.mp (hall .any)).1
      cases b with
      | any => exact hb
      | _ => simp [Allows.contains] at hcontains

end Axes

/-- A withheld effect is supported as where nothing is said, and excluded. -/
instance : Axis Net Unit where
  join _ _ := .offline
  joinTop _ := some .offline
  isTop _ := false
  evidence _ _ := .both

instance : LawfulAxis Net where
  Formed _ := True
  formed_join _ _ := trivial
  formed_joinTop _ _ := trivial
  evidence_join _ _ _ := rfl
  evidence_joinTop _ _ := rfl
  isTop_iff _ := by
    constructor
    · intro h
      cases h
    · intro h
      cases h ()

instance : Axis Gpu Unit where
  join _ _ := .withheld
  joinTop _ := some .withheld
  isTop _ := false
  evidence _ _ := .both

instance : LawfulAxis Gpu where
  Formed _ := True
  formed_join _ _ := trivial
  formed_joinTop _ _ := trivial
  evidence_join _ _ _ := rfl
  evidence_joinTop _ _ := rfl
  isTop_iff _ := by
    constructor
    · intro h
      cases h
    · intro h
      cases h ()

section Verbs
variable {V : Type} [DecidableEq V] [Fintype V]

instance : Axis (Finset V) V where
  join := (· ∪ ·)
  joinTop _ := none
  isTop verbs := decide (verbs.card = Fintype.card V)
  evidence verbs v := ⟨decide (v ∈ verbs), false⟩

instance : LawfulAxis (Finset V) where
  Formed _ := True
  formed_join _ _ := trivial
  formed_joinTop _ _ := trivial
  evidence_join a b v := by
    show Evidence.mk (decide (v ∈ a ∪ b)) false = Evidence.join ⟨decide (v ∈ a), false⟩ ⟨decide (v ∈ b), false⟩
    simp [Evidence.join, Finset.mem_union]
  evidence_joinTop {a} _ v := by
    show Evidence.allow = Evidence.allow.join ⟨decide (v ∈ a), false⟩
    simp [Evidence.join, Evidence.allow]
  isTop_iff {a} _ := by
    show decide (a.card = Fintype.card V) = true ↔ ∀ v : V, Evidence.permits ⟨decide (v ∈ a), false⟩ = true
    rw [decide_eq_true_eq, Finset.card_eq_iff_eq_univ, Finset.eq_univ_iff_forall]
    simp [Evidence.permits]

end Verbs

instance : Fintype EditorVerb := ⟨{.read, .write, .tui}, fun v => by cases v <;> decide⟩

instance : Fintype ShellVerb := ⟨{.chdir, .detach}, fun v => by cases v <;> decide⟩

/-! ## Layers -/

/-- Only extension consumes one. -/
structure Fragment where
  layer : GrantLayer

/-- The effects a layer may speak to. -/
inductive Request
  | fs (op : FsOp) (subject : Subject)
  | exec (subject : ExecSubject)
  | net
  | gpu
  | editor (verb : EditorVerb)
  | shell (verb : ShellVerb)

inductive Effect
  | fs
  | exec
  | net
  | gpu
  | editor
  | shell
deriving DecidableEq

def Request.effect : Request → Effect
  | .fs _ _ => .fs
  | .exec _ => .exec
  | .net => .net
  | .gpu => .gpu
  | .editor _ => .editor
  | .shell _ => .shell

def Effect.Policy : Effect → Type
  | .fs => FsLayer
  | .exec => ExecRules
  | .net => Net
  | .gpu => Gpu
  | .editor => Finset EditorVerb
  | .shell => Finset ShellVerb

section Layers
variable [Host]

def Effect.isTop : (e : Effect) → e.Policy → Bool
  | .fs, policy => FsLayer.isTop policy
  | .exec, policy => ExecRules.isTop policy
  | .net, policy => Axis.isTop (T := Net) policy
  | .gpu, policy => Axis.isTop (T := Gpu) policy
  | .editor, policy => Axis.isTop (T := Finset EditorVerb) policy
  | .shell, policy => Axis.isTop (T := Finset ShellVerb) policy

namespace GrantLayer

def policy (l : GrantLayer) : (e : Effect) → Option e.Policy
  | .fs => l.fs
  | .exec => l.exec
  | .net => l.net
  | .gpu => l.gpu
  | .editor => l.editor
  | .shell => l.shell

def extend (base : GrantLayer) (fragment : Fragment) : GrantLayer where
  fs := extendAxis base.fs fragment.layer.fs
  exec := extendAxis base.exec fragment.layer.exec
  net := extendAxis base.net fragment.layer.net
  gpu := extendAxis base.gpu fragment.layer.gpu
  editor := extendAxis base.editor fragment.layer.editor
  shell := extendAxis base.shell fragment.layer.shell

/-- As the code makes them. -/
structure Formed (l : GrantLayer) : Prop where
  fs : Axis.Forms l.fs
  exec : Axis.Forms l.exec

def evidence (l : GrantLayer) : Request → Evidence
  | .fs op s => Axis.ofLayer l.fs (op, s)
  | .exec s => Axis.ofLayer l.exec s
  | .net => Axis.ofLayer l.net ()
  | .gpu => Axis.ofLayer l.gpu ()
  | .editor v => Axis.ofLayer l.editor v
  | .shell v => Axis.ofLayer l.shell v

end GrantLayer

def Fragment.evidence (f : Fragment) : Request → Evidence
  | .fs op s => Axis.ofFragment f.layer.fs (op, s)
  | .exec s => Axis.ofFragment f.layer.exec s
  | .net => Axis.ofFragment f.layer.net ()
  | .gpu => Axis.ofFragment f.layer.gpu ()
  | .editor v => Axis.ofFragment f.layer.editor v
  | .shell v => Axis.ofFragment f.layer.shell v

namespace GrantLayer

variable {base : GrantLayer} {fragment : Fragment}

omit [Host] in
theorem forms_trivial {T S : Type} [Axis T S] [LawfulAxis T] (h : ∀ a : T, LawfulAxis.Formed a) (axis : Option T) :
    Axis.Forms axis := fun a _ => h a

theorem evidence_extend (hf : fragment.layer.Formed) (r : Request) :
    (base.extend fragment).evidence r = (base.evidence r).join (fragment.evidence r) := by
  cases r with
  | fs op s => exact Axis.ofLayer_extend hf.fs (op, s)
  | exec s => exact Axis.ofLayer_extend hf.exec s
  | net => exact Axis.ofLayer_extend (forms_trivial (fun _ => trivial) _) ()
  | gpu => exact Axis.ofLayer_extend (forms_trivial (fun _ => trivial) _) ()
  | editor v => exact Axis.ofLayer_extend (forms_trivial (fun _ => trivial) _) v
  | shell v => exact Axis.ofLayer_extend (forms_trivial (fun _ => trivial) _) v

theorem policy_extend_none {e : Effect} (h : fragment.layer.policy e = none) :
    (base.extend fragment).policy e = base.policy e := by
  cases e <;> simp only [policy] at h <;> simp only [policy, extend, extendAxis, h] <;> rfl

theorem evidence_of_omitted {r : Request} (h : base.policy r.effect = none) : base.evidence r = .allow := by
  cases r <;> simp only [policy, Request.effect] at h <;> simp only [evidence, h] <;> rfl

/-- The top test of each axis reads as its policy permits. -/
theorem isTop_iff (h : base.Formed) {e : Effect} {a : e.Policy} (ha : base.policy e = some a) :
    e.isTop a = true ↔ ∀ r : Request, r.effect = e → (base.evidence r).permits = true := by
  cases e with
  | fs =>
    refine (Axis.isTop_iff_ofLayer h.fs ha).trans ⟨fun hall r hr => ?_, fun hall s => hall (.fs s.1 s.2) rfl⟩
    cases r <;> cases hr
    exact hall _
  | exec =>
    refine (Axis.isTop_iff_ofLayer h.exec ha).trans ⟨fun hall r hr => ?_, fun hall s => hall (.exec s) rfl⟩
    cases r <;> cases hr
    exact hall _
  | net =>
    refine (Axis.isTop_iff_ofLayer (forms_trivial (fun _ => trivial) base.net) ha).trans
      ⟨fun hall r hr => ?_, fun hall _ => hall .net rfl⟩
    cases r <;> cases hr
    exact hall ()
  | gpu =>
    refine (Axis.isTop_iff_ofLayer (forms_trivial (fun _ => trivial) base.gpu) ha).trans
      ⟨fun hall r hr => ?_, fun hall _ => hall .gpu rfl⟩
    cases r <;> cases hr
    exact hall ()
  | editor =>
    refine (Axis.isTop_iff_ofLayer (forms_trivial (fun _ => trivial) base.editor) ha).trans
      ⟨fun hall r hr => ?_, fun hall v => hall (.editor v) rfl⟩
    cases r <;> cases hr
    exact hall _
  | shell =>
    refine (Axis.isTop_iff_ofLayer (forms_trivial (fun _ => trivial) base.shell) ha).trans
      ⟨fun hall r hr => ?_, fun hall v => hall (.shell v) rfl⟩
    cases r <;> cases hr
    exact hall _

/-- Extension is the join of what both say, on every axis. -/
theorem extend_joins (hb : base.Formed) (hf : fragment.layer.Formed) :
    (∀ r, ((base.extend fragment).evidence r).positive = true ↔
      (base.evidence r).positive = true ∨ (fragment.evidence r).positive = true) ∧
    (∀ r, ((base.extend fragment).evidence r).negative = true ↔
      (base.evidence r).negative = true ∨ (fragment.evidence r).negative = true) ∧
    (∀ r, base.policy r.effect = none →
      (base.extend fragment).evidence r = ⟨true, (fragment.evidence r).negative⟩) ∧
    (∀ e, fragment.layer.policy e = none → (base.extend fragment).policy e = base.policy e) ∧
    ∀ e (a : e.Policy), base.policy e = some a →
      (e.isTop a = true ↔ ∀ r : Request, r.effect = e → (base.evidence r).permits = true) := by
  have hjoin : ∀ r : Request, (base.extend fragment).evidence r = (base.evidence r).join (fragment.evidence r) :=
    fun r => evidence_extend hf r
  refine ⟨fun r => ?_, fun r => ?_, fun r hr => ?_, fun e he => policy_extend_none he, fun e a ha => isTop_iff hb ha⟩
  · rw [hjoin]
    simp [Evidence.join]
  · rw [hjoin]
    simp [Evidence.join]
  · rw [hjoin, evidence_of_omitted hr]
    simp [Evidence.join, Evidence.allow]

end GrantLayer

end Layers

/-! ## A fragment of one exclusion -/

def keysDenied : GrantPath Excluded := ⟨"/keys", ⟨⟨directory ["keys"] 7⟩, none⟩⟩

def withoutKeys : Fragment := ⟨{ GrantLayer.root with fs := some (FsLayer.new [] [] [keysDenied]) }⟩

theorem extend_joins_withoutKeys :
    @GrantLayer.evidence folding (@GrantLayer.extend folding .root withoutKeys)
      (.fs .read (.access (directory ["keys"] 7))) = .both := by
  let _ : Host := folding
  have hroot : GrantLayer.root.Formed := by
    constructor <;> intro l hl <;> cases hl
  have hformed : withoutKeys.layer.Formed := by
    constructor
    · intro l hl
      cases hl
      exact FsLayer.formed_new _ _ _
    · intro r hr
      cases hr
  have hexcluded : (FsLayer.new [] [] [keysDenied]).read.excludes (.access (directory ["keys"] 7)) = true :=
    Table.excludes_iff.mpr ⟨⟨keysDenied⟩, by simp [FsLayer.new], Excluded.matched_own keysDenied.real .within⟩
  have hnegative : (withoutKeys.evidence (.fs .read (.access (directory ["keys"] 7)))).negative = true := hexcluded
  rw [(GrantLayer.extend_joins hroot hformed).2.2.1 _ rfl, hnegative]
  rfl

end Ral.Authority
