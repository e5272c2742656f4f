/-
  Drv60870.Lib.Glob — Python's `fnmatch`, on POSIX: shell patterns over whole names.

  `*` stands for any characters, `?` for one, `[seq]` for one of `seq` and `[!seq]` for one
  that is not of it. A `[` that nothing closes stands for itself, as does a `]` that is the
  first of its `seq`. Inside, `a-z` is a range; one with its ends the other way is taken out
  before the `!` is looked for, so that `[c-a!]` stands for any character.

  `fnmatch_plain`: a pattern without `*`, `?` and `[` matches itself only.
-/

import Mathlib.Data.String.Basic

namespace Drv60870.Lib.Glob

inductive Token where
  | star
  | any
  | lit (c : Char)
  | seq (neg : Bool) (ranges : List (Char × Char))
  deriving DecidableEq

namespace Token

def admits : Token → Char → Bool
  | star, _ => false
  | any, _ => true
  | lit c, d => c == d
  | seq neg ranges, d => neg != ranges.any fun r => r.1 ≤ d && d ≤ r.2

end Token

/-! ## Patterns -/

/-- What a `seq` may begin with before a `]` closes it. -/
def opening : List Char → List Char × List Char
  | '!' :: ']' :: s => (['!', ']'], s)
  | '!' :: s => (['!'], s)
  | ']' :: s => ([']'], s)
  | s => ([], s)

/-- A `seq` cut at the hyphens of its ranges. The first `skip` characters are passed over, and two
    after each such hyphen; a hyphen at the end stands for itself. -/
def chunks : Nat → List Char → List Char → List (List Char)
  | _, chunk, [] => [chunk]
  | 0, chunk, '-' :: s => if s.isEmpty then [chunk ++ ['-']] else chunk :: chunks 2 [] s
  | skip, chunk, c :: s => chunks (skip - 1) (chunk ++ [c]) s

def isReversed (chunk next : List Char) : Bool :=
  match chunk.getLast?, next.head? with
  | some c, some d => d < c
  | _, _ => false

def dropReversed : List (List Char) → List (List Char)
  | [] => []
  | chunk :: rest =>
    match dropReversed rest with
    | [] => [chunk]
    | next :: more =>
      if isReversed chunk next then (chunk.dropLast ++ next.tail) :: more else chunk :: next :: more

/-- The characters of a class, `none` for the hyphen of a range; one alone is a range of its own. -/
def ranges : List (Option Char) → List (Char × Char)
  | some c :: none :: some d :: rest => (c, d) :: ranges rest
  | some c :: rest => (c, c) :: ranges rest
  | none :: rest => ('-', '-') :: ranges rest
  | [] => []

/-- A `!` is looked for in what is left of the `seq`. -/
def charClass : List (Option Char) → Token
  | some '!' :: s => .seq true (ranges s)
  | s => .seq false (ranges s)

/-- What follows a `[`, up to its `]`; and the rest of the pattern. -/
def bracket (s : List Char) : Option (Token × List Char) :=
  let (first, s) := opening s
  match s.dropWhile (· ≠ ']') with
  | [] => none
  | _ :: rest =>
    let cut := chunks (if first.head? = some '!' then 2 else 1) [] (first ++ s.takeWhile (· ≠ ']'))
    some (charClass ([none].intercalate ((dropReversed cut).map (·.map some))), rest)

theorem length_bracket {s rest : List Char} {t : Token} (h : bracket s = some (t, rest)) : rest.length < s.length := by
  have hopen : (opening s).2.length ≤ s.length := by
    unfold opening
    split <;> simp only [List.length_cons] <;> omega
  simp only [bracket] at h
  split at h
  · cases h
  · rename_i c rest' hd
    cases h
    have hlen := (List.dropWhile_suffix (l := (opening s).2) (· ≠ ']')).length_le
    rw [hd, List.length_cons] at hlen
    omega

def translate : List Char → List Token
  | [] => []
  | c :: s =>
    if c = '*' then .star :: translate s
    else if c = '?' then .any :: translate s
    else if c = '[' then
      match _h : bracket s with
      | some (t, rest) => t :: translate rest
      | none => .lit c :: translate s
    else .lit c :: translate s
termination_by s => s.length
decreasing_by
  · exact Nat.lt_succ_self _
  · exact Nat.lt_succ_self _
  · exact Nat.lt_succ_of_lt (length_bracket _h)
  · exact Nat.lt_succ_self _
  · exact Nat.lt_succ_self _

/-! ## Matching -/

def accepts : List Token → List Char → Bool
  | [], s => s.isEmpty
  | .star :: ts, s => s.tails.any (accepts ts)
  | _ :: _, [] => false
  | t :: ts, c :: s => t.admits c && accepts ts s

def fnmatch (name pat : String) : Bool := accepts (translate pat.toList) name.toList

/-! ## Plain patterns -/

def Plain (pat : String) : Prop := ∀ c ∈ pat.toList, c ≠ '*' ∧ c ≠ '?' ∧ c ≠ '['

instance (pat : String) : Decidable (Plain pat) :=
  List.decidableBAll (fun c => c ≠ '*' ∧ c ≠ '?' ∧ c ≠ '[') pat.toList

theorem translate_plain {s : List Char} (h : ∀ c ∈ s, c ≠ '*' ∧ c ≠ '?' ∧ c ≠ '[') : translate s = s.map .lit := by
  induction s with
  | nil => rw [translate, List.map_nil]
  | cons c s ih =>
    obtain ⟨hstar, hany, hseq⟩ := h c List.mem_cons_self
    rw [translate, if_neg hstar, if_neg hany, if_neg hseq, ih fun d hd => h d (List.mem_cons_of_mem c hd),
      List.map_cons]

theorem accepts_lits (s name : List Char) : accepts (s.map .lit) name = true ↔ name = s := by
  induction s generalizing name with
  | nil => cases name <;> simp [accepts]
  | cons c s ih =>
    cases name with
    | nil => simp [accepts]
    | cons d name =>
      simp only [List.map_cons, accepts, Bool.and_eq_true, ih, Token.admits, beq_iff_eq, List.cons.injEq]
      exact ⟨fun h => ⟨h.1.symm, h.2⟩, fun h => ⟨h.1.symm, h.2⟩⟩

theorem fnmatch_plain {pat : String} (h : Plain pat) (name : String) : fnmatch name pat = true ↔ name = pat := by
  rw [fnmatch, translate_plain h, accepts_lits]
  exact String.toList_inj

end Drv60870.Lib.Glob
