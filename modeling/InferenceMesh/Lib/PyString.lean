-- The operations of Python strings that read names: `in`, `startswith`, `split`
-- and `int`. A string is read by its characters.
import Mathlib

namespace python_string

/-- `sub in s`. -/
def contains (s sub : String) : Bool := decide (sub.toList <:+: s.toList)

/-- `s.startswith(start)`. -/
def startswith (s start : String) : Bool := decide (start.toList <+: s.toList)

/-- `s.split(".")`. -/
def split_dots (s : String) : List (List Char) := s.toList.splitOn '.'

theorem contains_iff {s sub : String} : contains s sub = true ↔ sub.toList <:+: s.toList :=
  decide_eq_true_iff

theorem startswith_iff {s start : String} :
    startswith s start = true ↔ start.toList <+: s.toList := decide_eq_true_iff

theorem contains_of_startswith {s start sub : String} (h : startswith s start = true)
    (hsub : sub.toList <:+: start.toList) : contains s sub = true :=
  contains_iff.mpr (hsub.trans (startswith_iff.mp h).isInfix)

theorem startswith_trans {s start start' : String} (h : startswith s start = true)
    (hstart : start'.toList <+: start.toList) : startswith s start' = true :=
  startswith_iff.mpr (hstart.trans (startswith_iff.mp h))

/-- A part with another one behind it stands before a dot. -/
theorem part_before_dot {part next : List Char} {before after : List (List Char)} {s : String}
    (h : split_dots s = before ++ part :: next :: after) : part ++ ['.'] <:+: s.toList := by
  have hjoin : ['.'].intercalate (split_dots s) = s.toList := List.intercalate_splitOn '.'
  rw [h] at hjoin
  rw [← hjoin]
  clear hjoin h
  induction before with
  | nil =>
    rw [List.nil_append, List.intercalate_cons_cons]
    exact (List.prefix_append _ _).isInfix
  | cons p before ih =>
    obtain ⟨q, rest, hq⟩ : ∃ q rest, before ++ part :: next :: after = q :: rest :=
      List.exists_cons_of_ne_nil (by simp)
    rw [List.cons_append, hq, List.intercalate_cons_cons, ← hq]
    exact ih.trans (List.suffix_append _ _).isInfix

/-! ## Numbers -/

/-- The code points of the zeros of all scripts. The other nine digits follow each of them. -/
def zeros : List Nat :=
  [0x30, 0x660, 0x6F0, 0x7C0, 0x966, 0x9E6, 0xA66, 0xAE6, 0xB66, 0xBE6, 0xC66, 0xCE6, 0xD66, 0xDE6,
    0xE50, 0xED0, 0xF20, 0x1040, 0x1090, 0x17E0, 0x1810, 0x1946, 0x19D0, 0x1A80, 0x1A90, 0x1B50,
    0x1BB0, 0x1C40, 0x1C50, 0xA620, 0xA8D0, 0xA900, 0xA9D0, 0xA9F0, 0xAA50, 0xABF0, 0xFF10, 0x104A0,
    0x10D30, 0x11066, 0x110F0, 0x11136, 0x111D0, 0x112F0, 0x11450, 0x114D0, 0x11650, 0x116C0,
    0x11730, 0x118E0, 0x11950, 0x11C50, 0x11D50, 0x11DA0, 0x11F50, 0x16A60, 0x16AC0, 0x16B50,
    0x1D7CE, 0x1D7D8, 0x1D7E2, 0x1D7EC, 0x1D7F6, 0x1E140, 0x1E2F0, 0x1E4F0, 0x1E950, 0x1FBF0]

def digit (c : Char) : Option Nat :=
  (zeros.find? (fun z => z ≤ c.toNat && c.toNat < z + 10)).map (fun z => c.toNat - z)

def is_space (c : Char) : Bool :=
  c.toNat ∈ [0x9, 0xA, 0xB, 0xC, 0xD, 0x1C, 0x1D, 0x1E, 0x1F, 0x20, 0x85, 0xA0, 0x1680, 0x2028,
    0x2029, 0x202F, 0x205F, 0x3000] || 0x2000 ≤ c.toNat && c.toNat ≤ 0x200A

def strip (s : List Char) : List Char :=
  ((s.dropWhile is_space).reverse.dropWhile is_space).reverse

/-- The digits of a number. An underscore may stand between two of them. -/
def digits : List Char → Option (List Nat)
  | [] => none
  | [c] => (digit c).map (fun d => [d])
  | c :: '_' :: rest => (digit c).bind (fun d => (digits rest).map (fun ds => d :: ds))
  | c :: rest => (digit c).bind (fun d => (digits rest).map (fun ds => d :: ds))

/-- A number without a sign. Python refuses to read more than 4300 digits. -/
def natural (s : List Char) : Option Nat :=
  (digits s).bind (fun ds =>
    if ds.length > 4300 then none else some (ds.foldl (fun n d => 10 * n + d) 0))

/-- `int(s)`, when it does not raise. -/
def int (s : List Char) : Option Int :=
  match strip s with
  | '-' :: rest => (natural rest).map (fun n => -(n : Int))
  | '+' :: rest => (natural rest).map (fun n => (n : Int))
  | s => (natural s).map (fun n => (n : Int))

example : int " -1_0".toList = some (-10) := by decide +kernel

end python_string
