import Mathlib.Data.List.Basic
import Mathlib.Data.Prod.Basic
import Mathlib.Logic.Function.Basic

/-!
# Block ciphers

A Feistel network is a list of rounds, each of which mixes one half of a block into the other half. A
mode of operation applies a block cipher to as many blocks of a text as there are.
-/

namespace Ciphers

/-! ### Feistel networks -/

section Feistel

variable {K W : Type*} (mix : K → W → W → W)

def round (x : W × W) (k : K) : W × W := (mix k x.1 x.2, x.1)

def rounds (ks : List K) (x : W × W) : W × W := ks.foldl (round mix) x

variable {mix}

theorem round_swap (involutive : ∀ k x, Function.Involutive (mix k x)) (k : K) (x : W × W) :
    round mix (round mix x k).swap k = x.swap := by
  rw [round, round, Prod.swap_prod_mk, involutive k x.1]
  rfl

theorem rounds_reverse (involutive : ∀ k x, Function.Involutive (mix k x)) (ks : List K) (x : W × W) :
    rounds mix ks.reverse (rounds mix ks x).swap = x.swap := by
  induction ks generalizing x with
  | nil => rfl
  | cons k ks ih =>
    have inner : List.foldl (round mix) (rounds mix (k :: ks) x).swap ks.reverse = (round mix x k).swap := ih (round mix x k)
    rw [List.reverse_cons, rounds, List.foldl_append, inner]
    exact round_swap involutive k x

end Feistel

/-! ### Modes of operation -/

structure Codec (B W : Type*) where
  size : Nat
  load : List B → W
  store : W → List B
  length_store : ∀ w, (store w).length = size
  load_store : ∀ w, load (store w) = w
  store_load : ∀ bs, bs.length = size → store (load bs) = bs

namespace Codec

variable {B W : Type*} (codec : Codec B W)

theorem load_take (w : W) (rest : List B) : codec.load ((codec.store w ++ rest).take codec.size) = w := by
  rw [← codec.length_store w, List.take_left, codec.load_store]

theorem drop_store (w : W) (rest : List B) : (codec.store w ++ rest).drop codec.size = rest := by
  rw [← codec.length_store w, List.drop_left]

theorem store_take {bs : List B} (enough : codec.size ≤ bs.length) :
    codec.store (codec.load (bs.take codec.size)) ++ bs.drop codec.size = bs := by
  rw [codec.store_load _ (by rw [List.length_take]; omega), List.take_append_drop]

def eachBlock (f : W → W) : Nat → List B → List B
  | 0, work => work
  | n + 1, work => codec.store (f (codec.load (work.take codec.size))) ++ eachBlock f n (work.drop codec.size)

def chainEncrypt (combine : W → W → W) (f : W → W) : Nat → W → List B → List B
  | 0, _, work => work
  | n + 1, last, work =>
    let out := f (combine (codec.load (work.take codec.size)) last)
    codec.store out ++ chainEncrypt combine f n out (work.drop codec.size)

def chainDecrypt (combine : W → W → W) (f : W → W) : Nat → W → List B → List B
  | 0, _, work => work
  | n + 1, last, work =>
    let block := codec.load (work.take codec.size)
    codec.store (combine (f block) last) ++ chainDecrypt combine f n block (work.drop codec.size)

theorem length_eachBlock (f : W → W) {n : Nat} {work : List B} (enough : n * codec.size ≤ work.length) :
    (codec.eachBlock f n work).length = work.length := by
  induction n generalizing work with
  | zero => rfl
  | succ n ih =>
    rw [Nat.succ_mul] at enough
    rw [eachBlock, List.length_append, codec.length_store, ih (by rw [List.length_drop]; omega), List.length_drop]
    omega

theorem length_chainEncrypt (combine : W → W → W) (f : W → W) {n : Nat} (last : W) {work : List B}
    (enough : n * codec.size ≤ work.length) : (codec.chainEncrypt combine f n last work).length = work.length := by
  induction n generalizing last work with
  | zero => rfl
  | succ n ih =>
    rw [Nat.succ_mul] at enough
    simp only [chainEncrypt]
    rw [List.length_append, codec.length_store, ih _ (by rw [List.length_drop]; omega), List.length_drop]
    omega

theorem eachBlock_inverse {f g : W → W} (inverse : Function.LeftInverse g f) {n : Nat} {work : List B}
    (enough : n * codec.size ≤ work.length) : codec.eachBlock g n (codec.eachBlock f n work) = work := by
  induction n generalizing work with
  | zero => rfl
  | succ n ih =>
    rw [Nat.succ_mul] at enough
    rw [eachBlock, eachBlock, codec.load_take, codec.drop_store, inverse, ih (by rw [List.length_drop]; omega)]
    exact codec.store_take (by omega)

theorem chain_inverse {combine : W → W → W} (cancels : ∀ x y, combine (combine x y) y = x) {f g : W → W}
    (inverse : Function.LeftInverse g f) {n : Nat} (last : W) {work : List B} (enough : n * codec.size ≤ work.length) :
    codec.chainDecrypt combine g n last (codec.chainEncrypt combine f n last work) = work := by
  induction n generalizing last work with
  | zero => rfl
  | succ n ih =>
    rw [Nat.succ_mul] at enough
    simp only [chainEncrypt, chainDecrypt]
    rw [codec.load_take, codec.drop_store, inverse, cancels, ih _ (by rw [List.length_drop]; omega)]
    exact codec.store_take (by omega)

end Codec

end Ciphers
