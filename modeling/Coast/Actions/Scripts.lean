import Coast.Lib.Procedures
import Coast.Session.ContextStores
import Coast.Text.Value
import Mathlib.Data.List.InsertIdx
import Mathlib.Tactic.Ring

/-!
# Action scripts

`ExecAction` reads a configuration as a script of actions. Some of the actions run scripts in their turn, and push
what these are to find onto the stacks of the context.
-/

namespace Coast.Actions

open Procedures Procedures.Program Session
open AnythingParser (assignKey)
open Regex (cstr)
open SlotFinder (asLong)
open Value (asCharPtr asString slotsOf)

structure ActionContext (S A O X : Type) where
  frames : ContextStacks S A O
  others : X

/-- What an action works on. -/
structure Turn (S A O X : Type) where
  transitionToken : Bytes
  ctx : ActionContext S A O X

variable {D S A O X : Type}

inductive RegisteredAction (D S A O X : Type) where
  | conditionalAction
  | loopAction
  | callAction
  | transitionDispatchAction
  | rendererDispatchAction
  | other (doExecAction : AnyTree D → Turn S A O X → Bool × Turn S A O X)

structure Runtime (D S A O X : Type) where
  env : Environment D
  findAction : Bytes → Option (RegisteredAction D S A O X)
  renderToString : AnyTree D → ActionContext S A O X → Bytes × ActionContext S A O X
  lookup : Bytes → ActionContext S A O X → Option (AnyTree D)
  /-- An `AnyLookupInterfaceAdapter`. -/
  adapter : AnyTree D → O

abbrev Script (D S A O X : Type) := Program (AnyTree D) (Turn S A O X)

def asBool : AnyTree D → Bool
  | .long n => n != 0
  | _ => false

def lookupPath (config : AnyTree D) (name : String) : Option (AnyTree D) :=
  match config with
  | .array slots => Value.lookup slots (ascii name)
  | _ => none

/-- `config[name]`. -/
def slot (config : AnyTree D) (name : String) : AnyTree D := (lookupPath config name).getD .null

def orDefault (dflt : String) : AnyTree D → AnyTree D
  | .null => .string (ascii dflt)
  | v => v

def entryDataInfo : CText := ⟨ascii "EntryDataInfo", by decide⟩

def callActionName : CText := ⟨ascii "CallAction", by decide⟩

namespace Runtime

variable (rt : Runtime D S A O X)

/-- While a `PushPopEntry` lives. -/
def pushed (fStoreName : CText) (store : AnyTree D) (t : Turn S A O X) : Turn S A O X :=
  { t with ctx.frames := (t.ctx.frames.push (some fStoreName) (some ⟨true, rt.adapter store⟩)).2 }

def popped (t : Turn S A O X) : Turn S A O X := { t with ctx.frames := t.ctx.frames.popStore.2 }

def rendered (spec : AnyTree D) (next : Bytes → Script D S A O X) : Script D S A O X :=
  reads fun t => writes { t with ctx := (rt.renderToString spec t.ctx).2 } (next (rt.renderToString spec t.ctx).1)

def withToken (transitionToken : Bytes) (next : Script D S A O X) : Script D S A O X :=
  reads fun t => writes { t with transitionToken } next

/-! ### Actions that run scripts -/

def conditionalAction (config : AnyTree D) : Script D S A O X :=
  match lookupPath config "Call" with
  | none => ends false
  | some roaActionSpec => calls id id roaActionSpec fun result =>
    match lookupPath config (if result then "True" else "False") with
    | some roaActionSpec => call roaActionSpec
    | none => ends true

def loopRound (strIndexSlot : Bytes) (i : Int64) : Turn S A O X → Turn S A O X :=
  rt.pushed entryDataInfo (.array (assignKey [] strIndexSlot (.long i)))

/-- `for (long i = start; i != stop; i += increment)`, which takes less than `2 ^ 64` rounds. -/
def loopFrom (strIndexSlot : Bytes) (action : AnyTree D) (breakOut : Bool) (stop increment : Int64) : Nat → Int64 → Script D S A O X
  | 0, _ => ends true
  | rounds + 1, i =>
    if i = stop then ends true
    else calls (rt.loopRound strIndexSlot i) popped action fun ret =>
      if ret = false ∧ breakOut = true then ends false
      else loopFrom strIndexSlot action breakOut stop increment rounds (i + increment)

def loop (strIndexSlot : Bytes) (action : AnyTree D) (breakOut : Bool) (start stop : Int64) : Script D S A O X :=
  let increment := if start < stop then 1 else -1
  rt.loopFrom strIndexSlot action breakOut (stop + increment) increment (2 ^ 64) start

def loopAction (config : AnyTree D) : Script D S A O X :=
  rt.rendered (slot config "Start") fun start => rt.rendered (slot config "End") fun stop =>
    rt.rendered (orDefault "Index" (slot config "IndexSlot")) fun strIndexSlot =>
      rt.loop strIndexSlot (slot config "Action") (asBool (slot config "BreakOutOnFailure"))
        (Int64.ofInt (asLong 0 start)) (Int64.ofInt (asLong 0 stop))

def doGetPositionalParameters (config : AnyTree D) : AnyTree D :=
  Value.ofSlots (((slotsOf config).zipIdx.drop 1).foldl (fun result e => assignKey result ('$'.toUInt8 :: decimalText e.2) e.1.2) [])

def intGetCallee (callee : AnyTree D) (ctx : ActionContext S A O X) : AnyTree D :=
  match callee with
  | .array slots => .array slots
  | callee => (rt.lookup (asCharPtr rt.env callee) ctx).getD callee

def callAction (config : AnyTree D) : Script D S A O X :=
  let callee := (lookupPath config "Action").getD (((slotsOf config).head?.map Prod.snd).getD .null)
  let params := (lookupPath config "Parameters").getD (doGetPositionalParameters config)
  reads fun t => calls (rt.pushed callActionName params) popped (rt.intGetCallee callee t.ctx) ends

def transitionDispatchAction : Script D S A O X :=
  reads fun t =>
    if t.transitionToken.length ≠ 0 then
      match (rt.lookup (cstr t.transitionToken) t.ctx).getD .null with
      | .null => ends false
      | nextActionConfig => call nextActionConfig
    else ends false

def rendererDispatchAction (config : AnyTree D) : Script D S A O X :=
  rt.rendered ((lookupPath config "Renderer").getD config) fun nextAction =>
    if nextAction.length ≠ 0 then
      reads fun t =>
        match (rt.lookup (cstr nextAction) t.ctx).getD .null with
        | .null => withToken nextAction (call .null)
        | nextActionConfig => call nextActionConfig
    else ends true

/-! ### The interpreter -/

def doExecAction (a : RegisteredAction D S A O X) (config : AnyTree D) : Script D S A O X :=
  match a with
  | .conditionalAction => conditionalAction config
  | .loopAction => rt.loopAction config
  | .callAction => rt.callAction config
  | .transitionDispatchAction => rt.transitionDispatchAction
  | .rendererDispatchAction => rt.rendererDispatchAction config
  | .other doExecAction => reads fun t => writes (doExecAction config t).2 (ends (doExecAction config t).1)

/-- `CallAction` of the interpreter. -/
def callNamed (actionName : Bytes) (config : AnyTree D) : Script D S A O X :=
  if actionName.length > 0 then
    match rt.findAction (cstr actionName), config with
    | some a, _ => rt.doExecAction a config
    | none, .null => ends true
    | none, _ => call config
  else ends false

def scriptEntry (e : Option Anything.Key × AnyTree D) : Script D S A O X :=
  match e.1 with
  | some slotname => rt.callNamed slotname.text e.2
  | none => call e.2

/-- `ExecAction` with a configuration. -/
def execAction : AnyTree D → Script D S A O X
  | .array slots => if slots.isEmpty then ends false else all (slots.map rt.scriptEntry)
  | .string s => withToken s (rt.callNamed s .null)
  | .null => reads fun t => rt.callNamed t.transitionToken .null
  | _ => ends false

end Runtime

/-! ### The stacks -/

def object : Stored S A O → Option (LookupInterface O)
  | .any _ => none
  | .object li => some li

/-- The stacks without what is in the stores. -/
def outline (c : ContextStacks S A O) : EntryStack (LookupInterface O) × Int × EntryStack (Option (LookupInterface O)) × Int :=
  (c.fLookupStack, c.fStackSz, ⟨c.fStore.keys, c.fStore.stack.map object⟩, c.fStoreSz)

structure Sound (c : ContextStacks S A O) : Prop where
  lowest : 1 ≤ c.fStoreSz
  keys : c.fStore.keys.length = c.fStoreSz
  stack : c.fStore.stack.length = c.fStoreSz

/-- From sound stacks on, no entry is new and none is gone; what is written into the stores is not told. -/
def Balanced (c c' : ContextStacks S A O) : Prop := Sound c → outline c' = outline c

section Stacks

variable {c c' c'' : ContextStacks S A O} {key : CText} {li : LookupInterface O}

theorem removeSlot_map {α β : Type} (f : α → β) (i : Int) (l : List α) : (removeSlot i l).map f = removeSlot i (l.map f) := by
  unfold removeSlot
  simp only [List.length_map]
  split
  · exact (List.eraseIdx_map f l _).symm
  · rfl

theorem Sound.of_outline (sound : Sound c) (same : outline c' = outline c) : Sound c' := by
  simp only [outline, Prod.mk.injEq, EntryStack.mk.injEq] at same
  obtain ⟨-, -, ⟨keys, stack⟩, size⟩ := same
  have lengths := congrArg List.length stack
  simp only [List.length_map] at lengths
  exact ⟨size ▸ sound.lowest, by rw [keys, size, sound.keys], by rw [lengths, size, sound.stack]⟩

theorem outline_popStore (same : outline c' = outline c) : outline c'.popStore.2 = outline c.popStore.2 := by
  simp only [outline, Prod.mk.injEq, EntryStack.mk.injEq] at same
  obtain ⟨lookups, lookupSz, ⟨keys, stack⟩, size⟩ := same
  unfold ContextStacks.popStore
  rw [size]
  split <;> simp [outline, EntryStack.remove, removeSlot_map, lookups, lookupSz, keys, stack, size]

theorem Sound.push (sound : Sound c) (adapter : li.bIsLookupAdapter = true) : Sound (c.push (some key) (some li)).2 := by
  obtain ⟨lowest, keys, stack⟩ := sound
  simp only [ContextStacks.push, adapter, if_true]
  exact ⟨by simp; omega, by simp [EntryStack.append, keys], by simp [EntryStack.append, stack]⟩

theorem Sound.popStore_push (sound : Sound c) (adapter : li.bIsLookupAdapter = true) :
    (c.push (some key) (some li)).2.popStore.2 = c := by
  obtain ⟨lowest, keys, stack⟩ := sound
  have last : ∀ {α : Type} (l : List α) (x : α), l.length = c.fStoreSz → removeSlot c.fStoreSz (l ++ [x]) = l := by
    intro α l x length
    rw [← length, removeSlot_split, List.append_nil]
  simp only [ContextStacks.push, adapter, if_true, ContextStacks.popStore]
  rw [if_pos (by omega)]
  simp [EntryStack.append, EntryStack.remove, last _ _ keys, last _ _ stack]

theorem Balanced.refl (c : ContextStacks S A O) : Balanced c c := fun _ => rfl

theorem Balanced.trans (first : Balanced c c') (later : Balanced c' c'') : Balanced c c'' :=
  fun sound => (later (sound.of_outline (first sound))).trans (first sound)

theorem Balanced.around (adapter : li.bIsLookupAdapter = true) (inside : Balanced (c.push (some key) (some li)).2 c') :
    Balanced c c'.popStore.2 := by
  intro sound
  rw [outline_popStore (inside (sound.push adapter)), sound.popStore_push adapter]

end Stacks

theorem sound_run (mark : A) (fEmpty : Any S A) (calls : List (StackCall S A O)) : Sound (ContextStacks.run mark fEmpty calls) := by
  have some := List.length_pos_iff.mpr (Pushed.run_stores mark calls)
  rw [Pushed.run_toStacks]
  refine ⟨?_, by simp [Pushed.toStacks, EntryStack.ofEntries], by simp [Pushed.toStacks, EntryStack.ofEntries]⟩
  simp only [Pushed.toStacks]
  omega

def Kept (s t : Turn S A O X) : Prop := Balanced s.ctx.frames t.ctx.frames

/-- The other actions and the renderers pop what they push. -/
structure Runtime.Balanced (rt : Runtime D S A O X) : Prop where
  actions : ∀ name f, rt.findAction name = some (.other f) → ∀ config t, Kept t (f config t).2
  renderers : ∀ spec ctx, Actions.Balanced ctx.frames (rt.renderToString spec ctx).2.frames

namespace Runtime

variable {rt : Runtime D S A O X}

theorem Balanced.rendered (balanced : rt.Balanced) {spec : AnyTree D} {next : Bytes → Script D S A O X}
    (keeps : ∀ text t, (next text).Keeps Kept t) (t : Turn S A O X) : (rt.rendered spec next).Keeps Kept t :=
  ⟨balanced.renderers spec t.ctx, keeps _ _⟩

theorem kept_around {fStoreName : CText} {store : AnyTree D} {s t : Turn S A O X} (inside : Kept (rt.pushed fStoreName store s) t) :
    Kept s (popped t) :=
  Actions.Balanced.around rfl inside

theorem keeps_call (a : AnyTree D) (t : Turn S A O X) : (call a : Script D S A O X).Keeps Kept t := Keeps.call a t

theorem keeps_ends (b : Bool) (t : Turn S A O X) : (ends b : Script D S A O X).Keeps Kept t := trivial

theorem keeps_loopFrom (strIndexSlot : Bytes) (action : AnyTree D) (breakOut : Bool) (stop increment : Int64) (rounds : Nat) :
    ∀ i t, (rt.loopFrom strIndexSlot action breakOut stop increment rounds i).Keeps Kept t := by
  induction rounds with
  | zero => exact fun _ t => keeps_ends true t
  | succ rounds ih =>
    intro i t
    rw [loopFrom]
    split
    · trivial
    · refine fun u inside => ⟨kept_around inside, fun ret => ?_⟩
      dsimp only
      split
      · trivial
      · exact ih _ _

theorem Balanced.doExecAction (balanced : rt.Balanced) {name : Bytes} {a : RegisteredAction D S A O X}
    (found : rt.findAction name = some a) (config : AnyTree D) (t : Turn S A O X) : (rt.doExecAction a config).Keeps Kept t := by
  unfold Runtime.doExecAction
  split
  · unfold conditionalAction
    split
    · trivial
    · refine fun u inside => ⟨inside, fun result => ?_⟩
      dsimp only
      split
      · exact keeps_call _ _
      · trivial
  · refine balanced.rendered (fun start => balanced.rendered fun stop => balanced.rendered fun strIndexSlot => ?_) t
    exact keeps_loopFrom _ _ _ _ _ _ _
  · exact fun u inside => ⟨kept_around inside, fun result => trivial⟩
  · unfold transitionDispatchAction
    simp only [Keeps]
    split
    · split
      · trivial
      · exact keeps_call _ t
    · trivial
  · refine balanced.rendered (fun nextAction u => ?_) t
    split
    · simp only [Keeps]
      split
      · exact ⟨Actions.Balanced.refl _, keeps_call _ _⟩
      · exact keeps_call _ u
    · trivial
  · exact ⟨balanced.actions _ _ found config t, trivial⟩

theorem Balanced.callNamed (balanced : rt.Balanced) (actionName : Bytes) (config : AnyTree D) (t : Turn S A O X) :
    (rt.callNamed actionName config).Keeps Kept t := by
  unfold Runtime.callNamed
  split
  · split
    · next found => exact balanced.doExecAction found _ t
    · trivial
    · exact keeps_call _ t
  · trivial

theorem Balanced.execAction (balanced : rt.Balanced) (config : AnyTree D) (t : Turn S A O X) : (rt.execAction config).Keeps Kept t := by
  unfold Runtime.execAction
  split
  · split
    · trivial
    · refine Keeps.all (fun p mem => ?_) t
      obtain ⟨⟨name, entry⟩, -, rfl⟩ := List.mem_map.mp mem
      intro t
      cases name with
      | none => exact keeps_call entry t
      | some slotname => exact balanced.callNamed slotname.text entry t
  · exact ⟨Actions.Balanced.refl _, balanced.callNamed _ _ _⟩
  · exact balanced.callNamed _ _ t
  · trivial

/-- Whatever a script does with the stores, it leaves the stacks as it found them. -/
theorem execAction_balanced (balanced : rt.Balanced) {mark : A} {fEmpty : Any S A} {calls : List (StackCall S A O)} {config : AnyTree D}
    {t t' : Turn S A O X} {result : Bool} (reached : t.ctx.frames = ContextStacks.run mark fEmpty calls)
    (done : Returns rt.execAction config t (result, t')) : outline t'.ctx.frames = outline t.ctx.frames := by
  obtain ⟨n, done⟩ := done
  have kept : Kept t t' :=
    exec_keeps (R := Kept) (fun s => Actions.Balanced.refl s.ctx.frames) Actions.Balanced.trans balanced.execAction n config t result t' done
  exact kept (reached ▸ sound_run mark fEmpty calls)

/-- One action has all names, texts are rendered as they are, and nothing can be looked up. -/
def simple (a : RegisteredAction Unit Unit Unit Unit Unit) : Runtime Unit Unit Unit Unit Unit :=
  ⟨bareEnvironment, fun _ => some a, fun spec ctx => (asString bareEnvironment spec, ctx), fun _ _ => none, fun _ => ()⟩

def started : Turn Unit Unit Unit Unit := ⟨[], ContextStacks.run () .null [], ()⟩

def emptied (_ : AnyTree Unit) (t : Turn Unit Unit Unit Unit) : Bool × Turn Unit Unit Unit Unit :=
  (true, { t with ctx.frames.fEmpty := .array () [] })

theorem execAction_balanced_emptied : ∃ t', t' ≠ started ∧ outline t'.ctx.frames = outline started.ctx.frames := by
  refine ⟨⟨[1], { started.ctx with frames.fEmpty := .array () [] }⟩, fun same => ?_, ?_⟩
  · exact absurd (congrArg Turn.transitionToken same) (by decide)
  · have balanced : (simple (.other emptied)).Balanced :=
      ⟨fun _ f found _ t => by cases found; exact fun _ => rfl, fun _ ctx => Actions.Balanced.refl ctx.frames⟩
    have done : Returns (simple (.other emptied)).execAction (.array [(none, .string [1])]) started (true, _) := ⟨2, rfl⟩
    exact execAction_balanced balanced rfl done

/-! ### What scripts mean -/

theorem returns_array {slots : Slots D} (nonempty : slots ≠ []) {t : Turn S A O X} {r : Bool × Turn S A O X} :
    Returns rt.execAction (.array slots) t r ↔ Procedures.Yields rt.execAction (all (slots.map rt.scriptEntry)) t r := by
  rw [returns_iff, execAction, if_neg (mt List.isEmpty_iff.mp nonempty)]

/-- The entries of a nested script without a name can as well stand in its place. -/
theorem execAction_inline (xs : Slots D) {ys : Slots D} (zs : Slots D) (nonempty : ys ≠ []) (t : Turn S A O X)
    (r : Bool × Turn S A O X) : Returns rt.execAction (.array (xs ++ (none, .array ys) :: zs)) t r ↔
      Returns rt.execAction (.array (xs ++ (ys ++ zs))) t r := by
  rw [returns_array (by simp), returns_array (by simp [nonempty])]
  simp only [List.map_append, List.map_cons, all_append, all, scriptEntry, yields_andThen, yields_call, returns_array nonempty]

theorem execAction_inline_token :
    Returns (simple (.other emptied)).execAction (.array [(none, .array [(none, .string [1])])]) started (emptied .null ⟨[1], started.ctx⟩) :=
  (execAction_inline [] [] (by simp) started _).mpr ⟨2, rfl⟩

theorem sizeOf_slot {slots : Slots D} {e : Option Anything.Key × AnyTree D} (mem : e ∈ slots) :
    sizeOf e.2 < sizeOf (AnyTree.array slots) := by
  have smaller := List.sizeOf_lt_of_mem mem
  obtain ⟨name, v⟩ := e
  simp only [Prod.mk.sizeOf_spec, AnyTree.array.sizeOf_spec] at smaller ⊢
  omega

theorem sizeOf_lookupPath {config v : AnyTree D} {name : String} (found : lookupPath config name = some v) : sizeOf v < sizeOf config := by
  unfold lookupPath at found
  split at found
  · obtain ⟨key, -, found⟩ := Option.bind_eq_some_iff.mp found
    obtain ⟨e, first, rfl⟩ := Option.map_eq_some_iff.mp found
    exact sizeOf_slot (List.mem_of_find?_eq_some first)
  · cases found

def Plain (rt : Runtime D S A O X) : Prop := ∀ name a, rt.findAction name = some a → a = .conditionalAction ∨ ∃ f, a = .other f

theorem Plain.callNamed (plain : rt.Plain) (actionName : Bytes) {config : AnyTree D} {ok : AnyTree D → Prop}
    (below : config ≠ .null → ∀ v, sizeOf v ≤ sizeOf config → ok v) : (rt.callNamed actionName config).CallsOnly ok := by
  have part : ∀ {name v}, lookupPath config name = some v → ok v := by
    intro name v found
    refine below (fun null => ?_) v (Nat.le_of_lt (sizeOf_lookupPath found))
    rw [null] at found
    cases found
  unfold Runtime.callNamed
  split
  · split
    · next found =>
      obtain rfl | ⟨f, rfl⟩ := plain _ _ found
      · change CallsOnly ok (conditionalAction _)
        unfold conditionalAction
        split
        · trivial
        · next call =>
          refine ⟨part call, fun result => ?_⟩
          dsimp only
          split
          · next next => exact ⟨part next, fun _ => trivial⟩
          · trivial
      · exact fun _ => trivial
    · trivial
    · next other => exact ⟨below other _ (Nat.le_refl _), fun _ => trivial⟩
  · trivial

/-- Scripts whose actions run no scripts, or only what is in their configuration, come to an end. -/
theorem execAction_returns (plain : rt.Plain) (config : AnyTree D) (t : Turn S A O X) : ∃ r, Returns rt.execAction config t r := by
  have down : ∀ config, (rt.execAction config).CallsOnly ((measure sizeOf).rel · config) := by
    intro config
    unfold Runtime.execAction
    split
    · next slots =>
      split
      · trivial
      · refine CallsOnly.all fun p mem => ?_
        obtain ⟨⟨name, entry⟩, inside, rfl⟩ := List.mem_map.mp mem
        have smaller := sizeOf_slot inside
        cases name with
        | none => exact ⟨smaller, fun _ => trivial⟩
        | some slotname => exact plain.callNamed slotname.text fun _ v le => Nat.lt_of_le_of_lt le smaller
    · exact fun _ => plain.callNamed _ fun null => absurd rfl null
    · exact fun _ => plain.callNamed _ fun null => absurd rfl null
    · trivial
  obtain ⟨n, r, done⟩ := exec_total (measure sizeOf).wf down config t
  exact ⟨r, n, done⟩

theorem execAction_returns_conditional :
    ∃ r, Returns (simple .conditionalAction).execAction (.array [(none, .array [(none, .string [1])])]) started r :=
  execAction_returns (fun _ _ found => .inl (Option.some.inj found).symm) _ started

theorem run_rendered (exec : AnyTree D → Turn S A O X → Option (Bool × Turn S A O X)) (spec : AnyTree D)
    (next : Bytes → Script D S A O X) (t : Turn S A O X) : (rt.rendered spec next).run exec t =
      (next (rt.renderToString spec t.ctx).1).run exec { t with ctx := (rt.renderToString spec t.ctx).2 } := rfl

theorem run_loop_zero {exec : AnyTree D → Turn S A O X → Option (Bool × Turn S A O X)} {strIndexSlot : Bytes} {action : AnyTree D}
    {breakOut : Bool} {t : Turn S A O X} (never : exec action (rt.loopRound strIndexSlot 0 t) = none) :
    (rt.loop strIndexSlot action breakOut 0 0).run exec t = none := by
  rw [loop, show 2 ^ 64 = 18446744073709551615 + 1 by norm_num, loopFrom, if_neg (by decide), run, never]

/-- A token that names the loop or the call runs it without a configuration, and what is left to run is again the token. -/
theorem execAction_loops {token : Bytes} {a : RegisteredAction D S A O X} (nonempty : token ≠ []) (found : rt.findAction (cstr token) = some a)
    (again : a = .loopAction ∧ (∀ ctx, (rt.renderToString .null ctx).1 = []) ∨ a = .callAction ∧ ∀ ctx, rt.lookup [] ctx = none)
    (t : Turn S A O X) (r : Bool × Turn S A O X) : ¬ Returns rt.execAction (.string token) t r := by
  have goes : ∀ (exec : AnyTree D → Turn S A O X → Option (Bool × Turn S A O X)),
      (∀ a t, a = .null ∧ t.transitionToken = token → exec a t = none) →
        ∀ t, t.transitionToken = token → (rt.callNamed token .null).run exec t = none := by
    intro exec never t same
    have named : rt.callNamed token .null = rt.doExecAction a .null := by
      unfold Runtime.callNamed
      rw [if_pos (List.length_pos_iff.mpr nonempty)]
      simp only [found]
    rw [named]
    obtain ⟨rfl, silent⟩ | ⟨rfl, unnamed⟩ := again
    · change (rt.loopAction .null).run exec t = none
      rw [loopAction, run_rendered, run_rendered, run_rendered]
      simp only [show ∀ name, slot (.null : AnyTree D) name = .null from fun _ => rfl, silent]
      exact run_loop_zero (never _ _ ⟨rfl, same⟩)
    · have callee : rt.intGetCallee .null t.ctx = .null := by
        change (rt.lookup [] t.ctx).getD .null = .null
        rw [unnamed]
        rfl
      change (calls (rt.pushed callActionName .null) popped (rt.intGetCallee .null t.ctx) ends : Script D S A O X).run exec t = none
      rw [run, never _ (rt.pushed callActionName .null t) ⟨callee, same⟩]
  have never : ∀ n (a : AnyTree D) (t : Turn S A O X), a = .null ∧ t.transitionToken = token → exec rt.execAction n a t = none := by
    refine exec_diverges ?_
    rintro exec lost _ t ⟨rfl, same⟩
    exact (congrArg (fun token => (rt.callNamed token .null).run exec t) same).trans (goes exec lost t same)
  rw [returns_iff]
  rintro ⟨n, done⟩
  have lost := goes _ (never n) { t with transitionToken := token } rfl
  cases lost.symm.trans done

theorem execAction_loops_simple : ¬ Returns (simple .loopAction).execAction (.string (ascii "LoopAction")) started (true, started) :=
  execAction_loops (by decide) rfl (.inl ⟨rfl, fun _ => rfl⟩) started _

/-! ### The rounds of a loop -/

/-- From `start` to `stop`, both included. -/
def indices (start stop : Int64) : List Int64 :=
  (List.range ((stop.toInt - start.toInt).natAbs + 1)).map fun k : Nat =>
    Int64.ofInt (if start < stop then start.toInt + k else start.toInt - k)

def eachRound (rt : Runtime D S A O X) (strIndexSlot : Bytes) (action : AnyTree D) (breakOut : Bool) : List Int64 → Script D S A O X
  | [] => ends true
  | i :: later => calls (rt.loopRound strIndexSlot i) popped action fun ret =>
      if ret = false ∧ breakOut = true then ends false else rt.eachRound strIndexSlot action breakOut later

theorem ofInt_ne {x y : Int} (apart : x ≠ y) (near : (x - y).natAbs < 2 ^ 64) : Int64.ofInt x ≠ Int64.ofInt y := by
  intro same
  have rest := congrArg Int64.toInt same
  rw [Int64.toInt_ofInt, Int64.toInt_ofInt, Int.bmod_def, Int.bmod_def, show Int64.size = 2 ^ 64 from rfl] at rest
  split at rest <;> split at rest <;> omega

theorem loopFrom_rounds {strIndexSlot : Bytes} {action : AnyTree D} {breakOut : Bool} {step stop : Int}
    (unit : step = 1 ∨ step = -1) {d : Nat} (small : d < 2 ^ 64) : ∀ {rounds : Nat} {i : Int}, d ≤ rounds → stop = i + step * d →
      rt.loopFrom strIndexSlot action breakOut (Int64.ofInt stop) (Int64.ofInt step) rounds (Int64.ofInt i) =
        rt.eachRound strIndexSlot action breakOut ((List.range d).map fun k : Nat => Int64.ofInt (i + step * k)) := by
  induction d with
  | zero =>
    rintro rounds i - rfl
    rw [Int.natCast_zero, Int.mul_zero, Int.add_zero]
    cases rounds with
    | zero => rfl
    | succ rounds => exact if_pos rfl
  | succ d ih =>
    rintro rounds i le rfl
    obtain ⟨rounds, rfl⟩ := Nat.exists_eq_add_one_of_ne_zero (Nat.ne_of_gt (Nat.lt_of_lt_of_le (Nat.succ_pos d) le))
    have apart : Int64.ofInt i ≠ Int64.ofInt (i + step * (d + 1 : Nat)) := by
      rcases unit with rfl | rfl <;> exact ofInt_ne (by omega) (by omega)
    have later := @ih (by omega) rounds (i + step) (by omega) (by rcases unit with rfl | rfl <;> omega)
    have rounds : (List.range d).map ((fun k : Nat => Int64.ofInt (i + step * k)) ∘ Nat.succ) =
        (List.range d).map fun k : Nat => Int64.ofInt (i + step + step * k) := by
      refine List.map_congr_left fun k _ => congrArg Int64.ofInt ?_
      simp only [Nat.succ_eq_add_one]
      push_cast
      ring
    rw [loopFrom, if_neg apart, List.range_succ_eq_map, List.map_cons, List.map_map, eachRound, rounds, ← later, Int64.ofInt_add i step,
      Int.natCast_zero, Int.mul_zero, Int.add_zero]

theorem loop_rounds {strIndexSlot : Bytes} {action : AnyTree D} {breakOut : Bool} {start stop : Int64}
    (near : (stop.toInt - start.toInt).natAbs + 1 < 2 ^ 64) :
    rt.loop strIndexSlot action breakOut start stop = rt.eachRound strIndexSlot action breakOut (indices start stop) := by
  unfold loop indices
  have enough := Nat.le_of_lt near
  generalize 2 ^ 64 = rounds at enough ⊢
  by_cases up : start < stop
  · have le : start.toInt < stop.toInt := Int64.lt_iff_toInt_lt.mp up
    have whole := @loopFrom_rounds _ _ _ _ _ rt strIndexSlot action breakOut 1 (stop.toInt + 1) (.inl rfl) _ near rounds start.toInt
      enough (by omega)
    rw [Int64.ofInt_add stop.toInt 1, Int64.ofInt_toInt, Int64.ofInt_toInt] at whole
    simp only [up, if_true, one_mul] at whole ⊢
    exact whole
  · have le : stop.toInt ≤ start.toInt := Int.not_lt.mp (mt Int64.lt_iff_toInt_lt.mpr up)
    have whole := @loopFrom_rounds _ _ _ _ _ rt strIndexSlot action breakOut (-1) (stop.toInt + -1) (.inr rfl) _ near rounds start.toInt
      enough (by omega)
    rw [Int64.ofInt_add stop.toInt (-1), Int64.ofInt_toInt, Int64.ofInt_toInt] at whole
    simp only [up, if_false, neg_one_mul, ← sub_eq_add_neg] at whole ⊢
    exact whole

/-- The action of a loop is run for each number from the first one to the last one, upwards or downwards. -/
theorem loopAction_rounds (config : AnyTree D) (t : Turn S A O X) (r : Bool × Turn S A O X) :
    let start := rt.renderToString (slot config "Start") t.ctx
    let stop := rt.renderToString (slot config "End") start.2
    let strIndexSlot := rt.renderToString (orDefault "Index" (slot config "IndexSlot")) stop.2
    (asLong 0 stop.1 - asLong 0 start.1).natAbs + 1 < 2 ^ 64 →
      (Procedures.Yields rt.execAction (rt.loopAction config) t r ↔ Procedures.Yields rt.execAction
        (rt.eachRound strIndexSlot.1 (slot config "Action") (asBool (slot config "BreakOutOnFailure"))
          (indices (Int64.ofInt (asLong 0 start.1)) (Int64.ofInt (asLong 0 stop.1)))) { t with ctx := strIndexSlot.2 } r) := by
  intro start stop strIndexSlot near
  have same : ∀ text, (Int64.ofInt (asLong 0 text)).toInt = asLong 0 text := by
    intro text
    unfold asLong
    split
    · rfl
    · rw [Int64.ofInt_toInt]
  rw [← loop_rounds (by rwa [same, same])]
  exact Iff.rfl

/-- Without a configuration there is one round. -/
theorem loopAction_rounds_null :
    Procedures.Yields (simple .loopAction).execAction ((simple .loopAction).loopAction .null) started (true, started) ↔
      Procedures.Yields (simple .loopAction).execAction ((simple .loopAction).eachRound (ascii "Index") .null false [0]) started
        (true, started) :=
  loopAction_rounds .null started _ (show (0 - 0 : Int).natAbs + 1 < 2 ^ 64 by decide)

end Runtime

end Coast.Actions
