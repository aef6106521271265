/-
Base64: bytes written as letters, six bits in each, and read back.

What is read may hold other characters, which are left out; the padding ends
the text, and a text that stops in the middle of a group without it is refused.
-/
import Compss.Lib.Text

namespace Lib.Base64

open Text

def alphabet : List Char := "ABCDEFGHIJKLMNOPQRSTUVWXYZabcdefghijklmnopqrstuvwxyz0123456789+/".toList

def letter (v : Nat) : Char := alphabet.getD v '='

def value? (c : Char) : Option Nat := alphabet.idxOf? c

def encode : List UInt8 → Text
  | a :: b :: c :: bytes =>
    letter (a.toNat / 4) :: letter (a.toNat % 4 * 16 + b.toNat / 16) ::
      letter (b.toNat % 16 * 4 + c.toNat / 64) :: letter (c.toNat % 64) :: encode bytes
  | [a, b] => [letter (a.toNat / 4), letter (a.toNat % 4 * 16 + b.toNat / 16), letter (b.toNat % 16 * 4), '=']
  | [a] => [letter (a.toNat / 4), letter (a.toNat % 4 * 16), '=', '=']
  | [] => []

/-- The text from a point of a group on: how many letters of the group have been
read, the bits that are left of them, and how much padding. -/
def decodeFrom : Text → (quadPos leftchar pads : Nat) → Option (List UInt8)
  | [], quadPos, _, _ => if quadPos = 0 then some [] else none
  | c :: text, quadPos, leftchar, pads =>
    if c = '=' then
      if 2 ≤ quadPos then
        if 4 ≤ quadPos + (pads + 1) then some [] else decodeFrom text quadPos leftchar (pads + 1)
      else decodeFrom text quadPos leftchar pads
    else
      match value? c with
      | none => decodeFrom text quadPos leftchar pads
      | some v =>
        match quadPos with
        | 0 => decodeFrom text 1 v 0
        | 1 => (decodeFrom text 2 (v % 16) 0).map (UInt8.ofNat (leftchar * 4 + v / 16) :: ·)
        | 2 => (decodeFrom text 3 (v % 4) 0).map (UInt8.ofNat (leftchar * 16 + v / 4) :: ·)
        | _ => (decodeFrom text 0 0 0).map (UInt8.ofNat (leftchar * 64 + v) :: ·)

def decode (text : Text) : Option (List UInt8) := decodeFrom text 0 0 0

section
variable {v quadPos leftchar pads : Nat} {text : Text}

theorem letter_spec : ∀ v < 64, letter v ∈ alphabet ∧ value? (letter v) = some v := by decide +kernel

theorem alphabet_spec : ∀ c ∈ alphabet, c ≠ '=' ∧ c ≠ ' ' := by
  have h : alphabet.all (fun c => c != '=' && c != ' ') = true := by decide +kernel
  simpa using h

/-- A letter is read. -/
theorem decodeFrom_letter (hv : v < 64) : decodeFrom (letter v :: text) quadPos leftchar pads =
    match quadPos with
    | 0 => decodeFrom text 1 v 0
    | 1 => (decodeFrom text 2 (v % 16) 0).map (UInt8.ofNat (leftchar * 4 + v / 16) :: ·)
    | 2 => (decodeFrom text 3 (v % 4) 0).map (UInt8.ofNat (leftchar * 16 + v / 4) :: ·)
    | _ => (decodeFrom text 0 0 0).map (UInt8.ofNat (leftchar * 64 + v) :: ·) := by
  obtain ⟨hmem, hvalue⟩ := letter_spec v hv
  rw [decodeFrom, if_neg (alphabet_spec _ hmem).1, hvalue]

theorem decodeFrom_zero (hv : v < 64) : decodeFrom (letter v :: text) 0 leftchar pads = decodeFrom text 1 v 0 :=
  decodeFrom_letter hv

theorem decodeFrom_one (hv : v < 64) : decodeFrom (letter v :: text) 1 leftchar pads =
    (decodeFrom text 2 (v % 16) 0).map (UInt8.ofNat (leftchar * 4 + v / 16) :: ·) := decodeFrom_letter hv

theorem decodeFrom_two (hv : v < 64) : decodeFrom (letter v :: text) 2 leftchar pads =
    (decodeFrom text 3 (v % 4) 0).map (UInt8.ofNat (leftchar * 16 + v / 4) :: ·) := decodeFrom_letter hv

theorem decodeFrom_three (hv : v < 64) : decodeFrom (letter v :: text) 3 leftchar pads =
    (decodeFrom text 0 0 0).map (UInt8.ofNat (leftchar * 64 + v) :: ·) := decodeFrom_letter hv

/-- What is written is read back. -/
theorem decode_encode (bytes : List UInt8) : decode (encode bytes) = some bytes := by
  rw [decode]
  fun_induction encode bytes with
  | case1 a b c bytes ih =>
    have ha := a.toNat_lt
    have hb := b.toNat_lt
    have hc := c.toNat_lt
    rw [decodeFrom_zero (by omega), decodeFrom_one (by omega), decodeFrom_two (by omega),
      decodeFrom_three (by omega), ih]
    have h₁ : a.toNat / 4 * 4 + (a.toNat % 4 * 16 + b.toNat / 16) / 16 = a.toNat := by omega
    have h₂ : (a.toNat % 4 * 16 + b.toNat / 16) % 16 * 16 + (b.toNat % 16 * 4 + c.toNat / 64) / 4 = b.toNat := by omega
    have h₃ : (b.toNat % 16 * 4 + c.toNat / 64) % 4 * 64 + c.toNat % 64 = c.toNat := by omega
    rw [h₁, h₂, h₃]
    simp
  | case2 a b =>
    have ha := a.toNat_lt
    have hb := b.toNat_lt
    rw [decodeFrom_zero (by omega), decodeFrom_one (by omega), decodeFrom_two (by omega)]
    have h₁ : a.toNat / 4 * 4 + (a.toNat % 4 * 16 + b.toNat / 16) / 16 = a.toNat := by omega
    have h₂ : (a.toNat % 4 * 16 + b.toNat / 16) % 16 * 16 + b.toNat % 16 * 4 / 4 = b.toNat := by omega
    rw [h₁, h₂]
    simp [decodeFrom]
  | case3 a =>
    have ha := a.toNat_lt
    rw [decodeFrom_zero (by omega), decodeFrom_one (by omega)]
    have h₁ : a.toNat / 4 * 4 + a.toNat % 4 * 16 / 16 = a.toNat := by omega
    rw [h₁]
    simp [decodeFrom]
  | case4 => rfl

theorem encode_inj {l m : List UInt8} (h : encode l = encode m) : l = m := by
  have hm := decode_encode m
  rw [← h, decode_encode] at hm
  exact Option.some.inj hm

theorem encode_eq_nil {bytes : List UInt8} : encode bytes = [] ↔ bytes = [] :=
  ⟨fun h => encode_inj h, fun h => by rw [h]; rfl⟩

/-- No blank is written. -/
theorem not_mem_encode (bytes : List UInt8) : ' ' ∉ encode bytes := by
  have hletter : ∀ v < 64, ' ' ≠ letter v := fun v hv he => (alphabet_spec _ (letter_spec v hv).1).2 he.symm
  fun_induction encode bytes with
  | case1 a b c bytes ih =>
    have ha := a.toNat_lt
    have hb := b.toNat_lt
    have hc := c.toNat_lt
    simp only [List.mem_cons, not_or]
    exact ⟨hletter _ (by omega), hletter _ (by omega), hletter _ (by omega), hletter _ (by omega), ih⟩
  | case2 a b =>
    have ha := a.toNat_lt
    have hb := b.toNat_lt
    simp only [List.mem_cons, List.not_mem_nil, or_false, not_or]
    exact ⟨hletter _ (by omega), hletter _ (by omega), hletter _ (by omega), by decide⟩
  | case3 a =>
    have ha := a.toNat_lt
    simp only [List.mem_cons, List.not_mem_nil, or_false, not_or]
    exact ⟨hletter _ (by omega), hletter _ (by omega), by decide, by decide⟩
  | case4 => exact List.not_mem_nil

end

end Lib.Base64
