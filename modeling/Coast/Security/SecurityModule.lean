import Coast.Regex.Program
import Coast.Security.Blowfish

/-!
# The protection of private state

A state is compressed, signed, scrambled and encoded. Each of the four items writes its name in front of
its result, and the way back takes the item of each layer from the name that stands there.
-/

namespace Coast.Security

open Regex (cstr)

structure SecurityItem (State : Type) where
  fName : Bytes
  doEncode : Bytes → Bytes
  doDecode : Bytes → Option Bytes
  compressor : Option ((State → Bytes) × (Bytes → Option State)) := none

structure Registry (ι State : Type) where
  fTable : List (Bytes × ι)
  object : ι → SecurityItem State

/-- The names that `SecurityModule::Init` reads from the configuration. -/
structure SecurityConfig where
  fgScrambler : Bytes
  fgEncoder : Bytes
  fgSigner : Bytes
  fgCompressor : Bytes

variable {ι State : Type}

namespace Registry

variable (reg : Registry ι State)

def findSecurityItem (name : Bytes) : Option ι := reg.fTable.lookup (cstr name)

def findSecurityItemWithDefault (name : Bytes) : Option ι :=
  match reg.findSecurityItem name with
  | some item => some item
  | none => reg.findSecurityItem (ascii "SecurityItem")

/-- `SafeCast` to a compressor. -/
def findCompressor (name : Bytes) : Option (ι × (State → Bytes) × (Bytes → Option State)) :=
  (reg.findSecurityItem name).bind fun item => (reg.object item).compressor.map fun hooks => (item, hooks)

end Registry

/-! ### One layer -/

def endsItemName (c : UInt8) : Bool := c == ':'.toUInt8 || c == '-'.toUInt8

def getNamePrefixFromEncodedText (encodedText : Bytes) : Bytes :=
  let name := encodedText.takeWhile fun c => !endsItemName c
  if name.length = encodedText.length then name ++ [0] else name

namespace SecurityItem

variable (reg : Registry ι State)

def encode (itemtouse : Bytes) (cleartext : Bytes) : Bytes :=
  match reg.findSecurityItemWithDefault itemtouse with
  | some item => (reg.object item).fName ++ '-'.toUInt8 :: (reg.object item).doEncode cleartext
  | none => itemtouse ++ ['-'.toUInt8]

def decode (encodedText : Bytes) : Option (ι × Bytes) :=
  let encodername := getNamePrefixFromEncodedText encodedText
  if encodername.length = 0 then none
  else (reg.findSecurityItemWithDefault encodername).bind fun item =>
    ((reg.object item).doDecode (encodedText.drop (encodername.length + 1))).map fun cleartext => (item, cleartext)

end SecurityItem

namespace Compressor

variable (reg : Registry ι State)

def compress (theName : Bytes) (cleartext : State) : Bytes :=
  match reg.findCompressor theName with
  | some (item, doCompress, _) => (reg.object item).fName ++ '-'.toUInt8 :: doCompress cleartext
  | none => []

def expand (encodedText : Bytes) : Option (ι × State) :=
  let compressorname := getNamePrefixFromEncodedText encodedText
  if compressorname.length = 0 then none
  else (reg.findCompressor compressorname).bind fun found =>
    (found.2.2 (encodedText.drop (compressorname.length + 1))).map fun state => (found.1, state)

end Compressor

/-! ### The module -/

structure Unscrambled (ι State : Type) where
  encoder : ι
  scrambler : ι
  signer : ι
  compressor : ι
  state : State

namespace SecurityModule

variable (reg : Registry ι State)

def scrambleState (config : SecurityConfig) (state : State) : Bytes :=
  let compressedText := Compressor.compress reg config.fgCompressor state
  if 0 < compressedText.length then
    let signedText := SecurityItem.encode reg config.fgSigner compressedText
    let cryptText := SecurityItem.encode reg config.fgScrambler signedText
    SecurityItem.encode reg config.fgEncoder cryptText
  else []

def unscrambleState (s : Bytes) : Option (Unscrambled ι State) := do
  let (encoder, crypt) ← SecurityItem.decode reg s
  let (scrambler, signedText) ← SecurityItem.decode reg crypt
  let (signer, compressedText) ← SecurityItem.decode reg signedText
  let (compressor, state) ← Compressor.expand reg compressedText
  return ⟨encoder, scrambler, signer, compressor, state⟩

end SecurityModule

/-! ### The name in front of a text -/

def PlainName (name : Bytes) : Prop := ∀ c ∈ name, endsItemName c = false

/-- The name that a text carries, and what stands behind the delimiter, if there is one. -/
def Carries (text name rest : Bytes) : Prop :=
  PlainName name ∧ ((name ≠ [] ∧ ∃ d, endsItemName d = true ∧ text = name ++ d :: rest) ∨ (text = name ∧ rest = []))

theorem cstr_terminated (name : Bytes) : cstr (name ++ [0]) = cstr name := by
  rw [cstr, cstr, List.takeWhile_append]
  split
  · rename_i whole
    rw [(List.takeWhile_prefix _).eq_of_length whole, List.takeWhile_cons_of_neg (by decide), List.append_nil]
  · rfl

theorem plainName_takeWhile {name : Bytes} (plain : PlainName name) (tail : Bytes) :
    (name ++ tail).takeWhile (fun c => !endsItemName c) = name ++ tail.takeWhile fun c => !endsItemName c :=
  List.takeWhile_append_of_pos fun c mem => by rw [plain c mem]; rfl

theorem getName_delimited {name : Bytes} (plain : PlainName name) {d : UInt8} (delimiter : endsItemName d = true) (rest : Bytes) :
    getNamePrefixFromEncodedText (name ++ d :: rest) = name := by
  have stops : (d :: rest).takeWhile (fun c => !endsItemName c) = [] := by
    rw [List.takeWhile_cons, delimiter]
    rfl
  simp only [getNamePrefixFromEncodedText, plainName_takeWhile plain, stops, List.append_nil]
  rw [if_neg (by simp only [List.length_append, List.length_cons]; omega)]

theorem getName_whole {text : Bytes} (plain : PlainName text) : getNamePrefixFromEncodedText text = text ++ [0] := by
  have all := plainName_takeWhile plain []
  rw [List.append_nil, List.takeWhile_nil, List.append_nil] at all
  rw [getNamePrefixFromEncodedText, all, if_pos rfl]

theorem getName_carries {text : Bytes} (named : (getNamePrefixFromEncodedText text).length ≠ 0) :
    ∃ name rest, Carries text name rest ∧ cstr (getNamePrefixFromEncodedText text) = cstr name ∧
      text.drop ((getNamePrefixFromEncodedText text).length + 1) = rest := by
  have plain : PlainName (text.takeWhile fun c => !endsItemName c) := fun c mem => by
    simpa using List.mem_takeWhile_imp mem
  have split := List.takeWhile_append_dropWhile (p := fun c => !endsItemName c) (l := text)
  rcases tail : text.dropWhile (fun c => !endsItemName c) with _ | ⟨d, rest⟩
  · rw [tail, List.append_nil] at split
    rw [split] at plain
    rw [getName_whole plain]
    exact ⟨text, [], ⟨plain, Or.inr ⟨rfl, rfl⟩⟩, cstr_terminated text, List.drop_eq_nil_of_le (by simp; omega)⟩
  · have head := List.head?_dropWhile_not (fun c => !endsItemName c) text
    rw [tail] at head split
    have delimiter : endsItemName d = true := by simpa using head
    generalize text.takeWhile (fun c => !endsItemName c) = name at plain split
    subst split
    rw [getName_delimited plain delimiter] at named ⊢
    refine ⟨name, rest, ⟨plain, Or.inl ⟨List.ne_nil_of_length_pos (by omega), d, delimiter, rfl⟩⟩, rfl, ?_⟩
    rw [List.drop_append, List.drop_eq_nil_of_le (by omega), Nat.add_sub_cancel_left]
    rfl

theorem carries_getName {text name rest : Bytes} (carries : Carries text name rest) :
    (getNamePrefixFromEncodedText text).length ≠ 0 ∧ cstr (getNamePrefixFromEncodedText text) = cstr name ∧
      text.drop ((getNamePrefixFromEncodedText text).length + 1) = rest := by
  obtain ⟨plain, ⟨named, d, delimiter, rfl⟩ | ⟨rfl, rfl⟩⟩ := carries
  · rw [getName_delimited plain delimiter]
    refine ⟨fun none => named (List.length_eq_zero_iff.mp none), rfl, ?_⟩
    rw [List.drop_append, List.drop_eq_nil_of_le (by omega), Nat.add_sub_cancel_left]
    rfl
  · rw [getName_whole plain]
    exact ⟨by simp, cstr_terminated text, List.drop_eq_nil_of_le (by simp; omega)⟩

/-! ### The items that are applied -/

namespace Registry

variable (reg : Registry ι State)

def Decodes (text : Bytes) (item : ι) (cleartext : Bytes) : Prop :=
  ∃ name rest, Carries text name rest ∧ reg.findSecurityItemWithDefault name = some item ∧
    (reg.object item).doDecode rest = some cleartext

def Expands (text : Bytes) (item : ι) (state : State) : Prop :=
  ∃ name rest doCompress doExpand, Carries text name rest ∧ reg.findCompressor name = some (item, doCompress, doExpand) ∧
    doExpand rest = some state

def Accepts (s : Bytes) (applied : Unscrambled ι State) : Prop :=
  ∃ crypt signedText compressedText, reg.Decodes s applied.encoder crypt ∧ reg.Decodes crypt applied.scrambler signedText ∧
    reg.Decodes signedText applied.signer compressedText ∧ reg.Expands compressedText applied.compressor applied.state

theorem findSecurityItem_congr {name name' : Bytes} (same : cstr name = cstr name') :
    reg.findSecurityItem name = reg.findSecurityItem name' := by
  rw [findSecurityItem, findSecurityItem, same]

theorem decode_iff {text : Bytes} {item : ι} {cleartext : Bytes} :
    SecurityItem.decode reg text = some (item, cleartext) ↔ reg.Decodes text item cleartext := by
  constructor
  · intro decoded
    simp only [SecurityItem.decode] at decoded
    split at decoded
    · cases decoded
    · rename_i named
      obtain ⟨name, rest, carries, same, behind⟩ := getName_carries named
      obtain ⟨found, isFound, decoded⟩ := Option.bind_eq_some_iff.mp decoded
      obtain ⟨out, isOut, pair⟩ := Option.map_eq_some_iff.mp decoded
      obtain ⟨rfl, rfl⟩ := Prod.mk.inj pair
      rw [findSecurityItemWithDefault, reg.findSecurityItem_congr same] at isFound
      exact ⟨name, rest, carries, isFound, by rw [← behind, isOut]⟩
  · rintro ⟨name, rest, carries, found, decodes⟩
    obtain ⟨named, same, behind⟩ := carries_getName carries
    rw [findSecurityItemWithDefault, ← reg.findSecurityItem_congr same] at found
    simp only [SecurityItem.decode]
    rw [if_neg named, behind, findSecurityItemWithDefault, found, Option.bind_some, decodes, Option.map_some]

theorem expand_iff {text : Bytes} {item : ι} {state : State} :
    Compressor.expand reg text = some (item, state) ↔ reg.Expands text item state := by
  constructor
  · intro expanded
    simp only [Compressor.expand] at expanded
    split at expanded
    · cases expanded
    · rename_i named
      obtain ⟨name, rest, carries, same, behind⟩ := getName_carries named
      obtain ⟨⟨found, doCompress, doExpand⟩, isFound, expanded⟩ := Option.bind_eq_some_iff.mp expanded
      obtain ⟨out, isOut, pair⟩ := Option.map_eq_some_iff.mp expanded
      obtain ⟨rfl, rfl⟩ := Prod.mk.inj pair
      rw [findCompressor, reg.findSecurityItem_congr same] at isFound
      exact ⟨name, rest, doCompress, doExpand, carries, isFound, by rw [← behind]; exact isOut⟩
  · rintro ⟨name, rest, doCompress, doExpand, carries, found, expands⟩
    obtain ⟨named, same, behind⟩ := carries_getName carries
    rw [findCompressor, ← reg.findSecurityItem_congr same] at found
    simp only [Compressor.expand]
    rw [if_neg named, behind, findCompressor, found, Option.bind_some]
    change (doExpand rest).map _ = _
    rw [expands, Option.map_some]

theorem unscrambleState_iff {s : Bytes} {applied : Unscrambled ι State} :
    SecurityModule.unscrambleState reg s = some applied ↔ reg.Accepts s applied := by
  simp only [SecurityModule.unscrambleState, Option.bind_eq_bind, Option.bind_eq_some_iff, Prod.exists, Option.pure_def,
    Option.some.injEq, decode_iff, expand_iff]
  constructor
  · rintro ⟨encoder, crypt, first, scrambler, signedText, second, signer, compressedText, third, compressor, state, fourth, rfl⟩
    exact ⟨crypt, signedText, compressedText, first, second, third, fourth⟩
  · rintro ⟨crypt, signedText, compressedText, first, second, third, fourth⟩
    exact ⟨_, crypt, first, _, signedText, second, _, compressedText, third, _, _, fourth, rfl⟩

/-! ### What the configuration means for it -/

/-- The item configured under a name is registered under its own name and decodes what it encodes. -/
structure Serves (name : Bytes) (item : ι) : Prop where
  found : reg.findSecurityItemWithDefault name = some item
  own : reg.findSecurityItemWithDefault (reg.object item).fName = some item
  named : (reg.object item).fName ≠ []
  plain : PlainName (reg.object item).fName
  inverse : ∀ text, (reg.object item).doDecode ((reg.object item).doEncode text) = some text

theorem Serves.decodes {name : Bytes} {item : ι} (serves : reg.Serves name item) (text : Bytes) :
    reg.Decodes (SecurityItem.encode reg name text) item text := by
  rw [SecurityItem.encode, serves.found]
  exact ⟨_, _, ⟨serves.plain, Or.inl ⟨serves.named, _, rfl, rfl⟩⟩, serves.own, serves.inverse text⟩

/-- The scrambler and the signer of every accepted text are the configured ones. -/
def Enforces (config : SecurityConfig) : Prop :=
  ∀ s applied, SecurityModule.unscrambleState reg s = some applied →
    reg.findSecurityItemWithDefault config.fgScrambler = some applied.scrambler ∧
      reg.findSecurityItemWithDefault config.fgSigner = some applied.signer

structure PassThrough : Prop where
  items : ∀ name ∈ ["Encoder", "Scrambler", "Signer"], ∃ item, reg.findSecurityItem (ascii name) = some item ∧
    ∀ text, (reg.object item).doDecode text = some text
  separate : reg.findSecurityItem (ascii "Encoder") ≠ reg.findSecurityItem (ascii "Scrambler")
  compressor : ∃ item doCompress doExpand, reg.findCompressor (ascii "Compressor") = some (item, doCompress, doExpand) ∧
    ∀ text, (doExpand text).isSome = true

def named (name : String) (rest : Bytes) : Bytes := ascii name ++ '-'.toUInt8 :: rest

theorem plain_names : ∀ name ∈ ["Encoder", "Scrambler", "Signer", "Compressor", "bs"],
    PlainName (ascii name) ∧ ascii name ≠ [] := by
  unfold PlainName
  decide +kernel

theorem carries_named {name : String} (mem : name ∈ ["Encoder", "Scrambler", "Signer", "Compressor"]) (rest : Bytes) :
    Carries (named name rest) (ascii name) rest := by
  obtain ⟨plain, filled⟩ := plain_names name (by
    simp only [List.mem_cons, List.not_mem_nil, or_false] at mem ⊢
    tauto)
  exact ⟨plain, Or.inl ⟨filled, _, rfl, rfl⟩⟩

variable {reg}

theorem PassThrough.decodes (pass : reg.PassThrough) (name : String) (mem : name ∈ ["Encoder", "Scrambler", "Signer"])
    (rest : Bytes) : ∃ item, reg.findSecurityItem (ascii name) = some item ∧ reg.Decodes (named name rest) item rest := by
  obtain ⟨item, found, passes⟩ := pass.items name mem
  refine ⟨item, found, ascii name, rest, carries_named ?_ rest, by rw [findSecurityItemWithDefault, found], passes rest⟩
  simp only [List.mem_cons, List.not_mem_nil, or_false] at mem ⊢
  tauto

theorem PassThrough.accepts (pass : reg.PassThrough) (scrambler : String) (mem : scrambler ∈ ["Encoder", "Scrambler", "Signer"]) :
    ∃ applied, reg.findSecurityItem (ascii scrambler) = some applied.scrambler ∧
      SecurityModule.unscrambleState reg (named "Encoder" (named scrambler (named "Signer" (named "Compressor" [])))) = some applied := by
  obtain ⟨encoder, -, first⟩ := pass.decodes "Encoder" (by decide) (named scrambler (named "Signer" (named "Compressor" [])))
  obtain ⟨item, found, second⟩ := pass.decodes scrambler mem (named "Signer" (named "Compressor" []))
  obtain ⟨signer, -, third⟩ := pass.decodes "Signer" (by decide) (named "Compressor" [])
  obtain ⟨compressor, doCompress, doExpand, isFound, total⟩ := pass.compressor
  obtain ⟨state, expands⟩ := Option.isSome_iff_exists.mp (total [])
  exact ⟨⟨encoder, item, signer, compressor, state⟩, found, reg.unscrambleState_iff.mpr ⟨_, _, _, first, second, third, _, _,
    doCompress, doExpand, carries_named (by decide) [], isFound, expands⟩⟩

theorem PassThrough.not_enforces (pass : reg.PassThrough) (config : SecurityConfig) : ¬ reg.Enforces config := by
  intro enforces
  obtain ⟨one, found, accepted⟩ := pass.accepts "Encoder" (by decide)
  obtain ⟨other, found', accepted'⟩ := pass.accepts "Scrambler" (by decide)
  apply pass.separate
  rw [found, found', ← (enforces _ _ accepted).1, (enforces _ _ accepted').1]

structure Compresses (reg : Registry ι State) (name : Bytes) (item : ι) (state state' : State) : Prop where
  found : ∃ doCompress doExpand, reg.findCompressor name = some (item, doCompress, doExpand) ∧
    reg.findCompressor (reg.object item).fName = some (item, doCompress, doExpand) ∧ doExpand (doCompress state) = some state'
  named : (reg.object item).fName ≠ []
  plain : PlainName (reg.object item).fName

theorem Compresses.expands {name : Bytes} {item : ι} {state state' : State} (compresses : reg.Compresses name item state state') :
    0 < (Compressor.compress reg name state).length ∧ reg.Expands (Compressor.compress reg name state) item state' := by
  obtain ⟨⟨doCompress, doExpand, found, own, back⟩, named, plain⟩ := compresses
  simp only [Compressor.compress, found]
  exact ⟨by rw [List.length_append, List.length_cons]; omega, _, _, doCompress, doExpand, ⟨plain, Or.inl ⟨named, _, rfl, rfl⟩⟩, own, back⟩

theorem unscrambleState_scrambleState {config : SecurityConfig} {encoder scrambler signer compressor : ι} {state state' : State}
    (encodes : reg.Serves config.fgEncoder encoder) (scrambles : reg.Serves config.fgScrambler scrambler)
    (signs : reg.Serves config.fgSigner signer) (compresses : reg.Compresses config.fgCompressor compressor state state') :
    SecurityModule.unscrambleState reg (SecurityModule.scrambleState reg config state) =
      some ⟨encoder, scrambler, signer, compressor, state'⟩ := by
  obtain ⟨written, expands⟩ := compresses.expands
  simp only [SecurityModule.scrambleState, if_pos written]
  exact reg.unscrambleState_iff.mpr ⟨_, _, _, encodes.decodes _ _, scrambles.decodes _ _, signs.decodes _ _, expands⟩

end Registry

/-- The text itself names the items that are applied to it. They are the configured ones for a state that has
been written under the configuration, but no configuration enforces its scrambler and signer. -/
theorem unscrambleState_items (reg : Registry ι State) :
    (∀ s applied, SecurityModule.unscrambleState reg s = some applied ↔ reg.Accepts s applied) ∧
    (∀ config encoder scrambler signer compressor state state', reg.Serves config.fgEncoder encoder →
      reg.Serves config.fgScrambler scrambler → reg.Serves config.fgSigner signer →
      reg.Compresses config.fgCompressor compressor state state' →
      SecurityModule.unscrambleState reg (SecurityModule.scrambleState reg config state) =
        some ⟨encoder, scrambler, signer, compressor, state'⟩) ∧
    (reg.PassThrough → ∀ config, ¬ reg.Enforces config) :=
  ⟨fun _ _ => reg.unscrambleState_iff,
    fun _ _ _ _ _ _ _ encodes scrambles signs compresses =>
      Registry.unscrambleState_scrambleState encodes scrambles signs compresses,
    fun pass => pass.not_enforces⟩

/-! ### A registry with a keyed scrambler -/

def keyedRegistry (fKey : BlowfishKey) : Registry Nat Bytes where
  fTable := [(ascii "Encoder", 0), (ascii "Scrambler", 1), (ascii "Signer", 2), (ascii "Compressor", 3), (ascii "bs", 4)]
  object
    | 0 => ⟨ascii "Encoder", id, some, none⟩
    | 1 => ⟨ascii "Scrambler", id, some, none⟩
    | 2 => ⟨ascii "Signer", id, some, none⟩
    | 3 => ⟨ascii "Compressor", id, some, some (id, some)⟩
    | _ => ⟨ascii "bs", (BlowfishScrambler.new fKey).doEncode, (BlowfishScrambler.new fKey).doDecode, none⟩

theorem keyedRegistry_passThrough (fKey : BlowfishKey) : (keyedRegistry fKey).PassThrough where
  items := by
    intro name mem
    simp only [List.mem_cons, List.not_mem_nil, or_false] at mem
    rcases mem with rfl | rfl | rfl
    · exact ⟨0, rfl, fun _ => rfl⟩
    · exact ⟨1, rfl, fun _ => rfl⟩
    · exact ⟨2, rfl, fun _ => rfl⟩
  separate := by
    intro same
    cases same
  compressor := ⟨3, id, some, rfl, fun _ => rfl⟩

theorem keyedRegistry_serves (fKey : BlowfishKey) : ∀ name ∈ ["Encoder", "Signer", "bs"],
    ∃ item, (keyedRegistry fKey).Serves (ascii name) item ∧ (keyedRegistry fKey).findSecurityItem (ascii name) = some item := by
  intro name mem
  simp only [List.mem_cons, List.not_mem_nil, or_false] at mem
  rcases mem with rfl | rfl | rfl
  · exact ⟨0, ⟨rfl, rfl, (Registry.plain_names "Encoder" (by decide)).2, (Registry.plain_names "Encoder" (by decide)).1, fun _ => rfl⟩, rfl⟩
  · exact ⟨2, ⟨rfl, rfl, (Registry.plain_names "Signer" (by decide)).2, (Registry.plain_names "Signer" (by decide)).1, fun _ => rfl⟩, rfl⟩
  · exact ⟨4, ⟨rfl, rfl, (Registry.plain_names "bs" (by decide)).2, (Registry.plain_names "bs" (by decide)).1, BlowfishScrambler.doDecode_doEncode fKey⟩, rfl⟩

theorem unscrambleState_items_blowfish :
    let reg := keyedRegistry (initKey ⟨Vector.replicate 18 0, Vector.replicate 1024 0⟩ (ascii "secret"))
    let config : SecurityConfig := ⟨ascii "bs", ascii "Encoder", ascii "Signer", ascii "Compressor"⟩
    SecurityModule.unscrambleState reg (SecurityModule.scrambleState reg config (ascii "state")) =
      some ⟨0, 4, 2, 3, ascii "state"⟩ := by
  intro reg config
  have serves := keyedRegistry_serves (initKey ⟨Vector.replicate 18 0, Vector.replicate 1024 0⟩ (ascii "secret"))
  obtain ⟨encoder, encodes, foundEncoder⟩ := serves "Encoder" (by decide)
  obtain ⟨signer, signs, foundSigner⟩ := serves "Signer" (by decide)
  obtain ⟨scrambler, scrambles, foundScrambler⟩ := serves "bs" (by decide)
  cases foundEncoder
  cases foundSigner
  cases foundScrambler
  exact (unscrambleState_items reg).2.1 config 0 4 2 3 (ascii "state") (ascii "state") encodes scrambles signs
    ⟨⟨id, some, rfl, rfl, rfl⟩, (Registry.plain_names "Compressor" (by decide)).2,
      (Registry.plain_names "Compressor" (by decide)).1⟩

/-- The scrambler of the configuration is `bs`; the text is accepted without it. -/
theorem text_names_pass_through :
    let reg := keyedRegistry (initKey ⟨Vector.replicate 18 0, Vector.replicate 1024 0⟩ (ascii "secret"))
    let config : SecurityConfig := ⟨ascii "bs", ascii "Encoder", ascii "Signer", ascii "Compressor"⟩
    reg.PassThrough ∧ reg.findSecurityItemWithDefault config.fgScrambler = some 4 ∧
      SecurityModule.unscrambleState reg (ascii "Encoder-Scrambler-Signer-Compressor-*") = some ⟨0, 1, 2, 3, ascii "*"⟩ ∧
      ¬ reg.Enforces config := by
  intro reg config
  have accepted : SecurityModule.unscrambleState reg (ascii "Encoder-Scrambler-Signer-Compressor-*") =
      some ⟨0, 1, 2, 3, ascii "*"⟩ := rfl
  refine ⟨keyedRegistry_passThrough _, rfl, accepted, fun enforces => ?_⟩
  have same := (enforces _ _ accepted).1
  cases same

end Coast.Security
