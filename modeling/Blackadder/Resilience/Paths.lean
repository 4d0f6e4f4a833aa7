import Mathlib.Algebra.Group.Nat.Defs
import Mathlib.Data.List.Chain
import Mathlib.Data.List.TakeWhile
import Mathlib.Tactic.Common

/-!
# Path vectors

The manager writes a path as the ids of its vertices with a slash behind each one. The broker reads
the ids back and looks for a link.
-/

namespace Blackadder

/-- A vertex id is a double in igraph, and a stream writes six digits of it. -/
def scientific (n : Nat) : List Char :=
  let cut := (Nat.toDigits 10 n).length - 6
  let rest := n % 10 ^ cut
  let kept := n / 10 ^ cut
  -- to the nearest, and from the middle to the even one
  let kept := if 10 ^ cut < 2 * rest ∨ 2 * rest = 10 ^ cut ∧ kept % 2 = 1 then kept + 1 else kept
  let exponent := Nat.toDigits 10 (if kept = 10 ^ 6 then cut + 6 else cut + 5)
  let digits := Nat.toDigits 10 kept
  let fraction := (digits.tail.reverse.dropWhile (· = '0')).reverse
  digits.take 1 ++ (if fraction = [] then [] else '.' :: fraction) ++ ['e', '+'] ++
    (if exponent.length = 1 then '0' :: exponent else exponent)

/-- `ss_curr_path << VECTOR(*temp_v)[j]`. -/
def vertexString (n : Nat) : List Char :=
  if n < 10 ^ 6 then Nat.toDigits 10 n else scientific n

example : scientific 1234567 = ['1', '.', '2', '3', '4', '5', '7', 'e', '+', '0', '6'] := by decide

/-- The string `path` of `calculateFID`. -/
def pathString (path : List Nat) : List Char := path.flatMap fun v => vertexString v ++ ['/']

/-- `stringstream(str_token) >> tmp_item`, for a token that begins with a digit. -/
def readInt (token : List Char) : Nat :=
  min (Nat.ofDigitChars 10 (token.takeWhile Char.isDigit) 0) (2 ^ 31 - 1)

/-- The loop of `split_int_string` behind `token`. -/
def splitTokens (delim_char : Char) (token : List Char) : List Char → List Nat
  | [] => if token = [] then [] else [readInt token]
  | c :: rest =>
    if c = delim_char then
      (if token = [] then [] else [readInt token]) ++ splitTokens delim_char [] rest
    else splitTokens delim_char (token ++ [c]) rest

def splitIntString (input_str : List Char) (delim_char : Char) : List Nat :=
  splitTokens delim_char [] input_str

/-- The loop of `handle_lsn_request` over the vertices of a path. -/
def isCut (lsn_publisher_vtx lsn_neighbour_vtx : Nat) : List Nat → Bool
  | u :: v :: path =>
    (u = lsn_publisher_vtx ∧ v = lsn_neighbour_vtx ∨ v = lsn_publisher_vtx ∧ u = lsn_neighbour_vtx) ||
      isCut lsn_publisher_vtx lsn_neighbour_vtx (v :: path)
  | _ => false

variable {x y n : Nat} {path : List Nat} {token rest : List Char}

theorem splitTokens_append {c : Char} {word : List Char} (h : c ∉ word) :
    splitTokens c token (word ++ c :: rest) =
      (if token ++ word = [] then [] else [readInt (token ++ word)]) ++ splitTokens c [] rest := by
  induction word generalizing token with
  | nil => simp [splitTokens]
  | cons d word ih =>
    rw [List.mem_cons, not_or] at h
    rw [List.cons_append, splitTokens, if_neg (Ne.symm h.1), ih h.2, List.append_assoc,
      List.singleton_append]

theorem readInt_toDigits (h : n < 10 ^ 6) : readInt (Nat.toDigits 10 n) = n := by
  have hall : (Nat.toDigits 10 n).takeWhile Char.isDigit = Nat.toDigits 10 n := by
    rw [List.takeWhile_eq_self_iff]
    intro c hc
    exact Nat.isDigit_of_mem_toDigits (by decide) (by decide) hc
  rw [readInt, hall, Nat.ofDigitChars_toDigits (by decide) (by decide)]
  omega

/-- The broker reads the vertex ids that the manager wrote. -/
theorem splitIntString_pathString (h : ∀ v ∈ path, v < 10 ^ 6) :
    splitIntString (pathString path) '/' = path := by
  unfold splitIntString pathString
  induction path with
  | nil => rfl
  | cons v path ih =>
    rw [List.forall_mem_cons] at h
    have hslash : '/' ∉ Nat.toDigits 10 v := by
      intro hmem
      have hdigit := Nat.isDigit_of_mem_toDigits (by decide) (by decide) hmem
      exact absurd hdigit (by decide)
    rw [List.flatMap_cons, vertexString, if_pos h.1, List.append_assoc, List.singleton_append,
      splitTokens_append hslash, List.nil_append, if_neg Nat.toDigits_ne_nil, readInt_toDigits h.1,
      ih h.2, List.singleton_append]

end Blackadder
