import Ral.Seed.Engine

/-! # A seed arrives

What was encoded decodes, every environment rebuilt once at its own new address, and every
closure over the address its old environment went to.
-/

namespace Ral.Seed

variable {Code Scheme Held Rest : Type}

/-! ## Encoding the frames -/

section Encoding

open InternCtx

variable {m : Memory Code Scheme} {S : Finset ℕ} {ctx : InternCtx Code Scheme} {table : BuiltinTable}

theorem fromRuntime_met {v : Value Code} (cross : v.crosses table) (inside : ∀ a ∈ v.captured, a ∈ S)
    (h : Sound m S [] ctx) :
    ∃ ctx', ctx.fromRuntime v = .ok (serial ctx'.number v, ctx') ∧ Met m S [] ctx ctx' v.captured :=
  h.walk v cross inside

theorem entriesFrom_met {entries : List (HandlerEntry Code Scheme)}
    (cross : ∀ v ∈ entries.map HandlerEntry.thunk, v.crosses table)
    (inside : ∀ a ∈ (entries.map HandlerEntry.thunk).flatMap Value.captured, a ∈ S) (h : Sound m S [] ctx) :
    ∃ ctx', WireHandlerFrame.entriesFrom entries ctx =
        .ok (entries.map fun entry => (entry.name, serial ctx'.number entry.thunk, entry.scheme), ctx') ∧
      Met m S [] ctx ctx' ((entries.map HandlerEntry.thunk).flatMap Value.captured) := by
  induction entries generalizing ctx with
  | nil => exact ⟨ctx, rfl, h, .refl ctx, fun _ mem => nomatch mem⟩
  | cons entry rest ih =>
    obtain ⟨ctx₁, walked, met₁⟩ := fromRuntime_met (cross _ List.mem_cons_self)
      (fun a mem => inside a (List.mem_append_left _ mem)) h
    obtain ⟨ctx₂, others, met₂⟩ := ih (fun v mem => cross v (List.mem_cons_of_mem _ mem))
      (fun a mem => inside a (List.mem_append_right _ mem)) met₁.sound
    refine ⟨ctx₂, ?_, met₁.append met₂⟩
    rw [WireHandlerFrame.entriesFrom, walked]
    dsimp only
    rw [others, met₁.serial met₂]
    rfl

theorem catchAllFrom_met {catchAll : Option (Value Code)} (cross : ∀ v ∈ catchAll.toList, v.crosses table)
    (inside : ∀ a ∈ catchAll.toList.flatMap Value.captured, a ∈ S) (h : Sound m S [] ctx) :
    ∃ ctx', WireHandlerFrame.catchAllFrom catchAll ctx = .ok (catchAll.map (serial ctx'.number), ctx') ∧
      Met m S [] ctx ctx' (catchAll.toList.flatMap Value.captured) := by
  cases catchAll with
  | none => exact ⟨ctx, rfl, h, .refl ctx, fun _ mem => nomatch mem⟩
  | some v =>
    have same : (some v).toList.flatMap Value.captured = v.captured := by simp
    rw [same] at inside ⊢
    obtain ⟨ctx', walked, met⟩ := fromRuntime_met (cross v (by simp)) inside h
    refine ⟨ctx', ?_, met⟩
    rw [WireHandlerFrame.catchAllFrom, walked]
    rfl

theorem serialFrame_congr {f f' : ℕ → UInt32} {frame : HandlerFrame Code Scheme}
    (same : ∀ a ∈ frame.captured, f a = f' a) : serialFrame f frame = serialFrame f' frame := by
  have values : ∀ v ∈ frame.values, serial f v = serial f' v := fun v mem =>
    serial_congr v fun a ha => same a (List.mem_flatMap.mpr ⟨v, mem, ha⟩)
  have entries : (frame.entries.map fun entry => (entry.name, serial f entry.thunk, entry.scheme)) =
      frame.entries.map fun entry => (entry.name, serial f' entry.thunk, entry.scheme) := by
    apply List.map_congr_left
    intro entry mem
    rw [values entry.thunk (List.mem_append_left _ (List.mem_map_of_mem mem))]
  have catchAll : frame.catchAll.map (serial f) = frame.catchAll.map (serial f') := by
    cases eq : frame.catchAll with
    | none => rfl
    | some v =>
      have mem : v ∈ frame.values := List.mem_append_right _ (by simp [eq])
      exact congrArg some (values v mem)
  rw [serialFrame, serialFrame, entries, catchAll]

theorem frameFrom_met {frame : HandlerFrame Code Scheme} (cross : ∀ v ∈ frame.values, v.crosses table)
    (inside : ∀ a ∈ frame.captured, a ∈ S) (h : Sound m S [] ctx) :
    ∃ ctx', WireHandlerFrame.fromRuntime frame ctx = .ok (serialFrame ctx'.number frame, ctx') ∧
      Met m S [] ctx ctx' frame.captured := by
  rw [frame.captured_eq] at inside ⊢
  obtain ⟨ctx₁, entries, met₁⟩ := entriesFrom_met (fun v mem => cross v (List.mem_append_left _ mem))
    (fun a mem => inside a (List.mem_append_left _ mem)) h
  obtain ⟨ctx₂, catchAll, met₂⟩ := catchAllFrom_met (fun v mem => cross v (List.mem_append_right _ mem))
    (fun a mem => inside a (List.mem_append_right _ mem)) met₁.sound
  refine ⟨ctx₂, ?_, met₁.append met₂⟩
  have later : (frame.entries.map fun entry => (entry.name, serial ctx₁.number entry.thunk, entry.scheme)) =
      frame.entries.map fun entry => (entry.name, serial ctx₂.number entry.thunk, entry.scheme) := by
    apply List.map_congr_left
    intro entry mem
    rw [serial_congr entry.thunk fun a ha => (met₂.grown.number (met₁.met a
      (List.mem_flatMap.mpr ⟨entry.thunk, List.mem_map_of_mem mem, ha⟩))).symm]
  rw [WireHandlerFrame.fromRuntime, entries]
  dsimp only
  rw [catchAll, later]
  rfl

theorem framesFrom_met {frames : List (HandlerFrame Code Scheme)}
    (cross : ∀ frame ∈ frames, ∀ v ∈ frame.values, v.crosses table)
    (inside : ∀ frame ∈ frames, ∀ a ∈ frame.captured, a ∈ S) (h : Sound m S [] ctx) :
    ∃ ctx', WireHandlerFrame.framesFrom frames ctx = .ok (frames.map (serialFrame ctx'.number), ctx') ∧
      Met m S [] ctx ctx' (frames.flatMap HandlerFrame.captured) := by
  induction frames generalizing ctx with
  | nil => exact ⟨ctx, rfl, h, .refl ctx, fun _ mem => nomatch mem⟩
  | cons frame rest ih =>
    obtain ⟨ctx₁, walked, met₁⟩ := frameFrom_met (cross _ List.mem_cons_self) (inside _ List.mem_cons_self) h
    obtain ⟨ctx₂, others, met₂⟩ := ih (fun f mem => cross f (List.mem_cons_of_mem _ mem))
      (fun f mem => inside f (List.mem_cons_of_mem _ mem)) met₁.sound
    refine ⟨ctx₂, ?_, met₁.append met₂⟩
    have same : serialFrame ctx₁.number frame = serialFrame ctx₂.number frame :=
      serialFrame_congr fun a mem => (met₂.grown.number (met₁.met a mem)).symm
    rw [WireHandlerFrame.framesFrom, walked]
    dsimp only
    rw [others, same]
    rfl

end Encoding

/-! ## Decoding what was encoded -/

section Decoding

variable {manifest : BuiltinTable} {f : ℕ → UInt32} {dec : WireDecoder Code Scheme}

def WireDecoder.place (dec : WireDecoder Code Scheme) (f : ℕ → UInt32) (a : ℕ) : ℕ := (dec.rows (f a).toNat).getD 0

theorem env_eq {a : ℕ} (row : (dec.rows (f a).toNat).isSome) : dec.env (f a) = .ok (dec.place f a) := by
  obtain ⟨at_, eq⟩ := Option.isSome_iff_exists.mp row
  rw [WireDecoder.env, WireDecoder.place, eq]
  rfl

theorem rebuilds (same : dec.manifest = manifest) {among : List ℕ}
    (rows : ∀ a ∈ among, (dec.rows (f a).toNat).isSome) :
    Rebuilds manifest f (dec.place f) dec.rebuild among where
  thunk a mem comp := by
    rw [WireDecoder.rebuild, env_eq (rows a mem)]
  native entry mem conv := by
    rw [WireDecoder.rebuild, same, BuiltinTable.value_eq mem conv]

variable {g : ℕ → ℕ}

theorem intoBindings_serialRow {env : Env Code Scheme}
    (h : Rebuilds manifest f g dec.rebuild (InternCtx.capturedBy env))
    (cross : ∀ e ∈ env, e.2.value.crosses manifest) (formed : ∀ e ∈ env, e.2.value.formed) :
    intoBindings dec (serialRow f env) = .ok (env.map fun e => (e.1, e.2.relocate g)) := by
  induction env with
  | nil => rfl
  | cons e rest ih =>
    obtain ⟨k, b⟩ := e
    have here : intoRuntime (serial f b.value) dec = .ok (b.value.relocate g) :=
      unwalk_serial b.value (h.sub fun a mem => List.mem_append_left _ mem) (cross _ List.mem_cons_self)
        (formed _ List.mem_cons_self)
    have later := ih (h.sub fun a mem => List.mem_append_right _ mem)
      (fun e mem => cross e (List.mem_cons_of_mem _ mem)) (fun e mem => formed e (List.mem_cons_of_mem _ mem))
    rw [serialRow, List.map_cons, intoBindings, here]
    dsimp only
    rw [← serialRow, later]
    rfl

theorem entriesInto_serial {entries : List (HandlerEntry Code Scheme)}
    (h : Rebuilds manifest f g dec.rebuild ((entries.map HandlerEntry.thunk).flatMap Value.captured))
    (unary : ∀ entry ∈ entries, entry.arity = .unary)
    (cross : ∀ v ∈ entries.map HandlerEntry.thunk, v.crosses manifest)
    (formed : ∀ v ∈ entries.map HandlerEntry.thunk, v.formed) :
    WireHandlerFrame.entriesInto dec (entries.map fun entry => (entry.name, serial f entry.thunk, entry.scheme)) =
      .ok (entries.map fun entry => { entry with thunk := entry.thunk.relocate g }) := by
  induction entries with
  | nil => rfl
  | cons entry rest ih =>
    have here : intoRuntime (serial f entry.thunk) dec = .ok (entry.thunk.relocate g) :=
      unwalk_serial entry.thunk (h.sub fun a mem => List.mem_append_left _ mem) (cross _ List.mem_cons_self)
        (formed _ List.mem_cons_self)
    have later := ih (h.sub fun a mem => List.mem_append_right _ mem)
      (fun e mem => unary e (List.mem_cons_of_mem _ mem)) (fun v mem => cross v (List.mem_cons_of_mem _ mem))
      (fun v mem => formed v (List.mem_cons_of_mem _ mem))
    have arity := unary entry List.mem_cons_self
    rw [List.map_cons, WireHandlerFrame.entriesInto, here]
    dsimp only
    rw [later]
    cases entry
    subst arity
    rfl

theorem intoRuntime_serialFrame {frame : HandlerFrame Code Scheme}
    (h : Rebuilds manifest f g dec.rebuild frame.captured) (sends : frame.Sendable manifest) :
    WireHandlerFrame.intoRuntime dec (serialFrame f frame) = .ok (frame.relocate g) := by
  have entries : WireHandlerFrame.entriesInto dec (serialFrame f frame).entries = .ok (frame.relocate g).entries :=
    entriesInto_serial
    (h.sub fun a mem => by rw [frame.captured_eq]; exact List.mem_append_left _ mem) sends.unary
    (fun v mem => sends.cross v (List.mem_append_left _ mem)) (fun v mem => sends.formed v (List.mem_append_left _ mem))
  have catchAll : WireHandlerFrame.catchAllInto dec (serialFrame f frame).catchAll =
      .ok (frame.catchAll.map (Value.relocate g)) := by
    show WireHandlerFrame.catchAllInto dec (frame.catchAll.map (serial f)) = _
    cases eq : frame.catchAll with
    | none => rfl
    | some v =>
      have mem : v ∈ frame.values := List.mem_append_right _ (by simp [eq])
      have here : intoRuntime (serial f v) dec = .ok (v.relocate g) :=
        unwalk_serial v (h.sub fun a ha => List.mem_flatMap.mpr ⟨v, mem, ha⟩) (sends.cross v mem)
          (sends.formed v mem)
      rw [Option.map_some, WireHandlerFrame.catchAllInto, here]
      rfl
  rw [WireHandlerFrame.intoRuntime, entries]
  dsimp only
  rw [catchAll]
  rfl

theorem framesInto_serial {frames : List (HandlerFrame Code Scheme)}
    (h : ∀ frame ∈ frames, Rebuilds manifest f g dec.rebuild frame.captured)
    (sends : ∀ frame ∈ frames, frame.Sendable manifest) :
    WireHandlerFrame.framesInto dec (frames.map (serialFrame f)) = .ok (frames.map (HandlerFrame.relocate g)) := by
  induction frames with
  | nil => rfl
  | cons frame rest ih =>
    have later := ih (fun f mem => h f (List.mem_cons_of_mem _ mem))
      (fun f mem => sends f (List.mem_cons_of_mem _ mem))
    rw [List.map_cons, WireHandlerFrame.framesInto,
      intoRuntime_serialFrame (h _ List.mem_cons_self) (sends _ List.mem_cons_self)]
    dsimp only
    rw [later]
    rfl

end Decoding

/-! ## The whole table -/

section Table

open InternCtx

variable {m : Memory Code Scheme} {S : Finset ℕ} {ctx : InternCtx Code Scheme} {manifest : BuiltinTable}

theorem InternCtx.Sound.row (h : Sound m S [] ctx) (done : ctx.pending = []) {a : ℕ} (mem : a ∈ ctx.order) :
    ScopeTable.row ctx.scopeTable (ctx.order.idxOf a) = serialRow ctx.number (m.env a) ∧
      ∀ c ∈ capturedBy (m.env a), c ∈ ctx.order := by
  obtain ⟨row, met⟩ := h.rows a mem (List.not_mem_nil) (by rw [done]; exact List.not_mem_nil)
  constructor
  · rw [ScopeTable.row, row]
    rfl
  · intro c hc
    obtain ⟨e, he, hc⟩ := mem_capturedBy.mp hc
    exact met e he c hc

theorem mem_rowDeps_serialRow {f : ℕ → UInt32} {env : Env Code Scheme} {d : UInt32} :
    d ∈ rowDeps (serialRow f env) ↔ ∃ c ∈ capturedBy env, f c = d := by
  rw [mem_rowDeps]
  constructor
  · rintro ⟨e', he', hd⟩
    obtain ⟨e, he, rfl⟩ := List.mem_map.mp he'
    dsimp only at hd
    rw [refs_serial] at hd
    obtain ⟨c, hc, eq⟩ := List.mem_map.mp hd
    exact ⟨c, mem_capturedBy.mpr ⟨e, he, hc⟩, eq⟩
  · rintro ⟨c, hc, eq⟩
    obtain ⟨e, he, hc⟩ := mem_capturedBy.mp hc
    refine ⟨_, List.mem_map_of_mem he, ?_⟩
    dsimp only
    rw [refs_serial]
    exact List.mem_map.mpr ⟨c, hc, eq⟩

theorem InternCtx.Sound.decodes (few : S.card ≤ 2 ^ 32) (closed : Closed m manifest S) (h : Sound m S [] ctx)
    (done : ctx.pending = []) :
    ∃ dec, WireDecoder.forRuntime manifest ctx.scopeTable = some (.ok dec) ∧
      Built manifest ctx.scopeTable (Finset.range ctx.scopeTable.length) dec := by
  have deps : ∀ id < ctx.scopeTable.length, ∃ a ∈ ctx.order, ctx.order.idxOf a = id ∧
      (∀ c ∈ capturedBy (m.env a), c ∈ ctx.order ∧ c < a) ∧
      ∀ d, d ∈ ScopeTable.deps ctx.scopeTable id ↔ ∃ c ∈ capturedBy (m.env a), ctx.order.idxOf c = d := by
    intro id lt
    rw [h.length] at lt
    have mem := List.getElem_mem lt
    have place : ctx.order.idxOf ctx.order[id] = id := List.Nodup.idxOf_getElem h.nodup id lt
    obtain ⟨row, met⟩ := h.row done mem
    rw [place] at row
    refine ⟨ctx.order[id], mem, place, fun c hc => ⟨met c hc, ?_⟩, fun d => ?_⟩
    · obtain ⟨e, he, hc⟩ := mem_capturedBy.mp hc
      exact m.older _ e he c hc
    · rw [mem_deps, row]
      constructor
      · rintro ⟨r, hr, eq⟩
        obtain ⟨c, hc, num⟩ := mem_rowDeps_serialRow.mp hr
        exact ⟨c, hc, by rw [← h.place_lt few (met c hc), num, eq]⟩
      · rintro ⟨c, hc, eq⟩
        exact ⟨ctx.number c, mem_rowDeps_serialRow.mpr ⟨c, hc, rfl⟩, by rw [h.place_lt few (met c hc), eq]⟩
  refine forRuntime_ok ?_ (fun id => ctx.order[id]?.getD 0) ?_ ?_
  · intro id lt d hd
    obtain ⟨a, -, -, met, dep⟩ := deps id lt
    obtain ⟨c, hc, rfl⟩ := (dep d).mp hd
    rw [h.length]
    exact List.idxOf_lt_length_of_mem (met c hc).1
  · intro id lt d hd
    obtain ⟨a, mem, place, met, dep⟩ := deps id lt
    obtain ⟨c, hc, rfl⟩ := (dep d).mp hd
    have back : ∀ x ∈ ctx.order, ctx.order[ctx.order.idxOf x]?.getD 0 = x := by
      intro x hx
      rw [List.getElem?_eq_getElem (List.idxOf_lt_length_of_mem hx), List.getElem_idxOf]
      rfl
    rw [← place, back a mem, back c (met c hc).1]
    exact (met c hc).2
  · intro built dec id lt sub hb
    obtain ⟨a, mem, place, met, dep⟩ := deps id lt
    have inS := h.within a mem
    rw [← place, (h.row done mem).1]
    refine ⟨_, intoBindings_serialRow (rebuilds hb.manifest fun c hc => ?_) (closed.cross a inS) (m.formed a)⟩
    obtain ⟨at_, bindings, row, -⟩ := hb.rows _ (sub ((dep _).mpr ⟨c, hc, rfl⟩))
    rw [h.place_lt few (met c hc).1, row]
    rfl

end Table

/-! ## Arrival -/

/-- What a bequest reaches: its environment, what its handlers captured, and what any of
these captured. -/
inductive Bequest.Reaches (m : Memory Code Scheme) (b : Bequest Code Scheme Held Rest) : ℕ → Prop
  | env : Reaches m b b.env
  | handler {frame : HandlerFrame Code Scheme} {a : ℕ} (mem : frame ∈ b.handlers) (captured : a ∈ frame.captured) :
      Reaches m b a
  | captured {a c : ℕ} (h : Reaches m b a) (mem : c ∈ InternCtx.capturedBy (m.env a)) : Reaches m b c

/-- As `Shell::bequeath` leaves a bequest: no handle is reached, and each native is one of
the builtin table's. -/
structure Bequest.Scrubbed (m : Memory Code Scheme) (table : BuiltinTable) (b : Bequest Code Scheme Held Rest) :
    Prop where
  env : ∀ a, b.Reaches m a → ∀ e ∈ m.env a, e.2.value.crosses table
  handlers : ∀ frame ∈ b.handlers, frame.Sendable table

/-- Each environment reached is at one new address, `g` of its old one, with the same names
bound to the same values over environments so moved. -/
structure Arrives (m : Memory Code Scheme) (b : Bequest Code Scheme Held Rest) (heap : List (Env Code Scheme))
    (b' : Bequest Code Scheme Held Rest) (g : ℕ → ℕ) : Prop where
  env : b'.env = g b.env
  handlers : b'.handlers = b.handlers.map (HandlerFrame.relocate g)
  rest : b'.rest = b.rest
  names : ∀ a, b.Reaches m a → ∃ env, heap[g a]? = some env ∧
    ∀ name, env.binding name = ((m.env a).binding name).map (Binding.relocate g)

section Arrival

open InternCtx

variable {m : Memory Code Scheme} {manifest : BuiltinTable} {b : Bequest Code Scheme Held Rest}

theorem closed_reached (scrubbed : b.Scrubbed m manifest) {S : Finset ℕ} (all : ∀ a, b.Reaches m a → a ∈ S) :
    ∃ R : Finset ℕ, R ⊆ S ∧ (∀ a, a ∈ R ↔ b.Reaches m a) ∧ Closed m manifest R := by
  classical
  refine ⟨S.filter (b.Reaches m), Finset.filter_subset _ _, fun a => ?_, ?_⟩
  · rw [Finset.mem_filter]
    exact ⟨fun h => h.2, fun h => ⟨all a h, h⟩⟩
  · constructor
    · intro a mem c hc
      have here := Bequest.Reaches.captured (Finset.mem_filter.mp mem).2 hc
      exact Finset.mem_filter.mpr ⟨all c here, here⟩
    · intro a mem
      exact scrubbed.env a (Finset.mem_filter.mp mem).2

/-- An encoding, and the table it ends in. -/
theorem encodes (scrubbed : b.Scrubbed m manifest) {R : Finset ℕ} (few : R.card ≤ 2 ^ 32)
    (reached : ∀ a, a ∈ R ↔ b.Reaches m a) (closed : Closed m manifest R) :
    ∃ (ctx : InternCtx Code Scheme) (enough : ℕ), Sound m R [] ctx ∧ ctx.pending = [] ∧ b.env ∈ ctx.order ∧
      (∀ frame ∈ b.handlers, ∀ a ∈ frame.captured, a ∈ ctx.order) ∧
      ∀ fuel ≥ enough, EngineSeed.encode fuel m b =
        some (.ok ⟨ctx.scopeTable, ctx.number b.env, b.handlers.map (serialFrame ctx.number), b.grants, b.rest⟩) := by
  have start : Sound m R [] (InternCtx.new : InternCtx Code Scheme) := sound_new
  obtain ⟨sound₀, -, mem₀, num₀⟩ := start.interns ((reached b.env).mpr .env)
  obtain ⟨ctx₁, frames, met⟩ := framesFrom_met (fun frame mem => (scrubbed.handlers frame mem).cross)
    (fun frame mem a ha => (reached a).mpr (.handler mem ha)) sound₀
  obtain ⟨ctx, finished, sound, grown, done⟩ := met.sound.finishes few closed
    (R.card + ctx₁.pending.length + 1) (by omega)
  have met₁ : ∀ frame ∈ b.handlers, ∀ a ∈ frame.captured, a ∈ ctx₁.order := fun frame mem a ha =>
    met.met a (List.mem_flatMap.mpr ⟨frame, mem, ha⟩)
  refine ⟨ctx, R.card + ctx₁.pending.length + 1, sound, done, grown.subset (met.grown.mem mem₀),
    fun frame mem a ha => grown.subset (met₁ frame mem a ha), fun fuel enough => ?_⟩
  have same : ∀ a ∈ ctx₁.order, ctx₁.number a = ctx.number a := fun a mem =>
    congrArg UInt32.ofNat (idxOf_earlier grown mem).symm
  have image : (InternCtx.new.internEnv b.env : UInt32 × InternCtx Code Scheme).1 = ctx.number b.env := by
    rw [num₀, ← met.grown.number mem₀, same b.env (met.grown.mem mem₀)]
  have wire : b.handlers.map (serialFrame ctx₁.number) = b.handlers.map (serialFrame ctx.number) := by
    apply List.map_congr_left
    intro frame mem
    exact serialFrame_congr fun a ha => same a (met₁ frame mem a ha)
  unfold EngineSeed.encode
  dsimp only
  rw [frames]
  dsimp only
  rw [finish_mono enough finished, image, wire]

/-- The seed of a bequest of at most 2^32 environments decodes, and what it decodes to is
the bequest, moved. -/
theorem arrives_of_few (rehold : Held → Held) (scrubbed : b.Scrubbed m manifest) {S : Finset ℕ}
    (few : S.card ≤ 2 ^ 32) (all : ∀ a, b.Reaches m a → a ∈ S) :
    ∃ seed enough, (∀ fuel ≥ enough, EngineSeed.encode fuel m b = some (.ok seed)) ∧
      ∃ heap b' g, EngineSeed.decode manifest rehold seed = some (.ok (heap, b')) ∧ Arrives m b heap b' g := by
  obtain ⟨R, sub, reached, closed⟩ := closed_reached scrubbed all
  have fewer : R.card ≤ 2 ^ 32 := (Finset.card_le_card sub).trans few
  obtain ⟨ctx, enough, sound, done, memEnv, memFrames, encoded⟩ := encodes scrubbed fewer reached closed
  obtain ⟨dec, decoded, built⟩ := sound.decodes fewer closed done
  have rows : ∀ a ∈ ctx.order, (dec.rows (ctx.number a).toNat).isSome := by
    intro a mem
    have lt : (ctx.number a).toNat ∈ Finset.range ctx.scopeTable.length := by
      rw [sound.place_lt fewer mem, Finset.mem_range, sound.length]
      exact List.idxOf_lt_length_of_mem mem
    obtain ⟨at_, bindings, row, -⟩ := built.rows _ lt
    rw [row]
    rfl
  have among : ∀ {l : List ℕ}, (∀ a ∈ l, a ∈ ctx.order) →
      Rebuilds manifest ctx.number (dec.place ctx.number) dec.rebuild l := fun met =>
    rebuilds built.manifest fun a mem => rows a (met a mem)
  refine ⟨_, enough, encoded, dec.heap,
    ⟨dec.place ctx.number b.env, b.handlers.map (HandlerFrame.relocate (dec.place ctx.number)), rehold b.grants, b.rest⟩,
    dec.place ctx.number, ?_, rfl, rfl, rfl, fun a reach => ?_⟩
  · unfold EngineSeed.decode
    dsimp only
    rw [decoded]
    dsimp only
    rw [framesInto_serial (fun frame mem => among (memFrames frame mem)) scrubbed.handlers, env_eq (rows b.env memEnv)]
  · have mem : a ∈ ctx.order := by
      induction reach with
      | env => exact memEnv
      | handler mem captured => exact memFrames _ mem _ captured
      | captured _ mem ih => exact (sound.row done ih).2 _ mem
    have lt : ctx.order.idxOf a ∈ Finset.range ctx.scopeTable.length := by
      rw [Finset.mem_range, sound.length]
      exact List.idxOf_lt_length_of_mem mem
    obtain ⟨at_, bindings, row, read, here⟩ := built.rows _ lt
    obtain ⟨whole, met⟩ := sound.row done mem
    have inS := (reached a).mpr reach
    rw [whole, intoBindings_serialRow (among met) (closed.cross a inS) (m.formed a)] at read
    cases read
    have place : dec.place ctx.number a = at_ := by
      rw [WireDecoder.place, sound.place_lt fewer mem, row]
      rfl
    rw [← place] at here
    refine ⟨_, here, fun name => ?_⟩
    have names : ((m.env a).map fun e => (e.1, e.2.relocate (dec.place ctx.number))).map Prod.fst =
        (m.env a).map Prod.fst := by
      rw [List.map_map]
      rfl
    have distinct := m.distinct a
    rw [← names] at distinct
    rw [← Env.binding_relocate]
    exact (Env.binding_perm (SortedMap.perm_ofList distinct).symm distinct name).symm

end Arrival

/-- A seed arrives as it was sealed, over at most 2^32 environments; and any table at all
decodes to every row built, or to an error. -/
theorem seed_arrives (manifest : BuiltinTable) (rehold : Held → Held) :
    (∀ (m : Memory Code Scheme) (b : Bequest Code Scheme Held Rest) (S : Finset ℕ), b.Scrubbed m manifest →
      S.card ≤ 2 ^ 32 → (∀ a, b.Reaches m a → a ∈ S) →
      ∃ seed enough, (∀ fuel ≥ enough, EngineSeed.encode fuel m b = some (.ok seed)) ∧
        ∃ heap b' g, EngineSeed.decode manifest rehold seed = some (.ok (heap, b')) ∧ Arrives m b heap b' g) ∧
    ∀ table : ScopeTable Code Scheme, ∃ r, WireDecoder.forRuntime manifest table = some r ∧
      ∀ dec, r = .ok dec → Built manifest table (Finset.range table.length) dec :=
  ⟨fun _ _ _ scrubbed few all => arrives_of_few rehold scrubbed few all, forRuntime_ends manifest⟩

/-- Two blocks over one environment. -/
def shared : Memory Unit Unit where
  env
    | 0 => [("x", ⟨.unit, none⟩)]
    | 1 => [("f", ⟨.thunk () 0, none⟩), ("g", ⟨.thunk () 0, none⟩)]
    | _ => []
  distinct a := by
    match a with
    | 0 => decide
    | 1 => decide
    | _ + 2 => exact .nil
  older a := by
    match a with
    | 0 => simp [Value.captured]
    | 1 => simp [Value.captured]
    | _ + 2 => exact fun e he => nomatch he
  formed a := by
    match a with
    | 0 => simp [Value.formed]
    | 1 => simp [Value.formed]
    | _ + 2 => exact fun e he => nomatch he

theorem shared_reaches {a : ℕ} (h : Bequest.Reaches shared (⟨1, [], (), ()⟩ : Bequest Unit Unit Unit Unit) a) :
    a ∈ ({0, 1} : Finset ℕ) := by
  induction h with
  | env => decide
  | handler mem => cases mem
  | @captured a c _ mem ih =>
    rcases Finset.mem_insert.mp ih with rfl | one
    · cases mem
    · rw [Finset.mem_singleton.mp one] at mem
      have zero : c = 0 := by simpa [InternCtx.capturedBy, shared, Value.captured] using mem
      rw [zero]
      decide

theorem shared_scrubbed (manifest : BuiltinTable) :
    Bequest.Scrubbed shared manifest (⟨1, [], (), ()⟩ : Bequest Unit Unit Unit Unit) where
  env a _ := by
    match a with
    | 0 => simp [shared, Value.crosses]
    | 1 => simp [shared, Value.crosses]
    | _ + 2 => exact fun e he => nomatch he
  handlers frame mem := nomatch mem

theorem shared_arrives : ∃ seed enough,
    (∀ fuel ≥ enough, EngineSeed.encode fuel shared (⟨1, [], (), ()⟩ : Bequest Unit Unit Unit Unit) =
      some (.ok seed)) ∧
    ∃ heap b' g, EngineSeed.decode ⟨[], .nil⟩ id seed = some (.ok (heap, b')) ∧
      Arrives shared ⟨1, [], (), ()⟩ heap b' g :=
  (seed_arrives ⟨[], .nil⟩ id).1 shared ⟨1, [], (), ()⟩ {0, 1} (shared_scrubbed _) (by decide)
    fun _ h => shared_reaches h

end Ral.Seed
