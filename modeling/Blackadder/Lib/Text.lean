import Mathlib.Algebra.Group.Nat.Defs
import Mathlib.Data.List.TakeWhile
import Mathlib.Tactic.Common

/-!
# Numbers in a text

Formatted output and input as the C library does them, and tokens between delimiters.
-/

namespace Text

variable {b n w : Nat} {c d : Char} {word rest u : List Char}

/-- `isspace`. -/
def isSpace (c : Char) : Bool := c = ' ' ∨ '\t' ≤ c ∧ c ≤ '\r'

/-! ## Digits -/

/-- The value of a letter or a digit. -/
def symbolValue (c : Char) : Option Nat :=
  if '0' ≤ c ∧ c ≤ '9' then some (c.toNat - 48)
  else if 'a' ≤ c ∧ c ≤ 'f' then some (c.toNat - 87)
  else if 'A' ≤ c ∧ c ≤ 'F' then some (c.toNat - 55)
  else none

/-- The value of a digit of base `b`. -/
def digitValue (b : Nat) (c : Char) : Option Nat := (symbolValue c).filter (· < b)

def isDigit (b : Nat) (c : Char) : Bool := (digitValue b c).isSome

def value (b : Nat) (word : List Char) : Nat :=
  word.foldl (fun n c => b * n + (digitValue b c).getD 0) 0

/-- A number with zeros in front of it, at least `w` characters. -/
def padded (b w n : Nat) : List Char :=
  List.replicate (w - (Nat.toDigits b n).length) '0' ++ Nat.toDigits b n

theorem symbolValue_digitChar : ∀ n < 16, symbolValue (Nat.digitChar n) = some n := by decide

theorem digitValue_digitChar (hb : b ≤ 16) (h : n < b) : digitValue b (Nat.digitChar n) = some n := by
  rw [digitValue, symbolValue_digitChar n (by omega)]
  simpa using h

theorem isDigit_digitChar (hb : b ≤ 16) (h : n < b) : isDigit b (Nat.digitChar n) := by
  rw [isDigit, digitValue_digitChar hb h, Option.isSome_some]

theorem value_nil : value b [] = 0 := rfl

theorem value_append_digit : value b (word ++ [c]) = b * value b word + (digitValue b c).getD 0 := by
  rw [value, List.foldl_append, List.foldl_cons, List.foldl_nil, ← value]

theorem value_toDigits (hb : 1 < b) (hb' : b ≤ 16) (n : Nat) : value b (Nat.toDigits b n) = n := by
  induction n using Nat.strong_induction_on with
  | _ n ih =>
    rw [Nat.toDigits_eq_if hb]
    split
    · next h =>
      rw [← List.nil_append [_], value_append_digit, value_nil, digitValue_digitChar hb' h]
      simp
    · next h =>
      have hless : n / b < n := Nat.div_lt_self (by omega) hb
      have hrest : n % b < b := Nat.mod_lt _ (by omega)
      rw [value_append_digit, ih _ hless, digitValue_digitChar hb' hrest, Option.getD_some]
      exact Nat.div_add_mod n b

theorem isDigit_toDigits (hb : 1 < b) (hb' : b ≤ 16) (n : Nat) :
    ∀ c ∈ Nat.toDigits b n, isDigit b c := by
  induction n using Nat.strong_induction_on with
  | _ n ih =>
    intro c hc
    rw [Nat.toDigits_eq_if hb] at hc
    split at hc
    · next h =>
      obtain rfl := List.mem_singleton.1 hc
      exact isDigit_digitChar hb' h
    · next h =>
      rcases List.mem_append.1 hc with hc | hc
      · exact ih _ (Nat.div_lt_self (by omega) hb) c hc
      · obtain rfl := List.mem_singleton.1 hc
        exact isDigit_digitChar hb' (Nat.mod_lt _ (by omega))

theorem isDigit_zero (hb : 1 < b) : isDigit b '0' := by
  have hzero : digitValue b '0' = (some 0).filter (· < b) := rfl
  rw [isDigit, hzero]
  simp
  omega

theorem value_replicate : value b (List.replicate n '0' ++ word) = value b word := by
  have hzero : (digitValue b '0').getD 0 = 0 := by
    have h : digitValue b '0' = (some 0).filter (· < b) := rfl
    rw [h, Option.filter_some]
    split <;> rfl
  induction n with
  | zero => rfl
  | succ n ih =>
    rw [List.replicate_succ, List.cons_append, value, List.foldl_cons, hzero]
    exact ih

theorem value_padded (hb : 1 < b) (hb' : b ≤ 16) (w n : Nat) : value b (padded b w n) = n := by
  rw [padded, value_replicate, value_toDigits hb hb']

theorem isDigit_padded (hb : 1 < b) (hb' : b ≤ 16) (w n : Nat) :
    ∀ c ∈ padded b w n, isDigit b c := by
  intro c hc
  rcases List.mem_append.1 hc with hc | hc
  · rw [List.eq_of_mem_replicate hc]
    exact isDigit_zero hb
  · exact isDigit_toDigits hb hb' n c hc

theorem length_padded (hb : 1 < b) (hw : 0 < w) (h : n < b ^ w) : (padded b w n).length = w := by
  have hle := (Nat.length_toDigits_le_iff hb hw).2 h
  rw [padded, List.length_append, List.length_replicate]
  omega

theorem padded_ne_nil : padded b w n ≠ [] := by
  simp [padded, Nat.toDigits_ne_nil]

theorem not_isSpace_of_isDigit (h : isDigit b c) : isSpace c = false := by
  by_contra hspace
  simp only [isSpace, Bool.not_eq_false, decide_eq_true_eq] at hspace
  have hnone : digitValue b c = none := by
    have hbound : c = ' ' ∨ c ≤ '\r' := hspace.imp id And.right
    have h0 : ¬ '0' ≤ c := by
      intro h0
      rcases hbound with rfl | hle
      · exact absurd h0 (by decide)
      · exact absurd (Char.le_trans h0 hle) (by decide)
    have ha : ¬ 'a' ≤ c := fun ha => h0 (Char.le_trans (b := 'a') (by decide) ha)
    have hA : ¬ 'A' ≤ c := fun hA => h0 (Char.le_trans (b := 'A') (by decide) hA)
    simp [digitValue, symbolValue, h0, ha, hA]
  rw [isDigit, hnone] at h
  cases h

theorem isSpace_dropWhile (hc : isSpace c = false) :
    (c :: rest).dropWhile isSpace = c :: rest :=
  List.dropWhile_cons_of_neg (by simp [hc])

theorem blanks_dropWhile (hu : ∀ c ∈ u, isSpace c) (hc : isSpace c = false) :
    (u ++ c :: rest).dropWhile isSpace = c :: rest := by
  rw [List.dropWhile_append_of_pos hu, isSpace_dropWhile hc]

/-! ## `sscanf` -/

/-- A number of at most `w` digits, and what is behind it. -/
def digits (b w : Nat) (l : List Char) : Option (Nat × List Char) :=
  let word := (l.take w).takeWhile (isDigit b)
  if word = [] then none else some (value b word, l.drop word.length)

/-- The same behind blanks. -/
def number (b w : Nat) (l : List Char) : Option (Nat × List Char) :=
  digits b w (l.dropWhile isSpace)

def sign : List Char → Bool × List Char
  | '-' :: l => (true, l)
  | '+' :: l => (false, l)
  | l => (false, l)

def signed (negative : Bool) (n : Nat) : Int := if negative then -(n : Int) else n

/-- `%d`. -/
def integer (l : List Char) : Option (Int × List Char) :=
  let (negative, l) := sign (l.dropWhile isSpace)
  (digits 10 l.length l).map fun (n, rest) => (signed negative n, rest)

theorem digits_append (hdigits : ∀ c ∈ word, isDigit b c) (hne : word ≠ []) (hw : word.length ≤ w)
    (hend : word.length = w ∨ ∀ c ∈ rest.head?, isDigit b c = false) :
    digits b w (word ++ rest) = some (value b word, rest) := by
  have htake : ((word ++ rest).take w).takeWhile (isDigit b) = word := by
    rw [List.take_append, List.take_of_length_le hw, List.takeWhile_append_of_pos hdigits]
    rcases hend with hlen | hend
    · rw [hlen, Nat.sub_self, List.take_zero, List.takeWhile_nil, List.append_nil]
    · cases rest with
      | nil => simp
      | cons c rest =>
        have hc : isDigit b c = false := hend c rfl
        cases w - word.length with
        | zero => simp
        | succ k => simp [hc]
  simp only [digits, htake, hne, if_false, List.drop_left]

/-- Of a longer number the first `w` digits are read. -/
theorem digits_cut (hdigits : ∀ c ∈ word, isDigit b c) (hw : 0 < w) (hlong : w < word.length) :
    ∃ c word', isDigit b c ∧ digits b w (word ++ rest) = some (value b (word.take w), c :: word') := by
  have hlen : (word.take w).length = w := List.length_take_of_le hlong.le
  have htake : ∀ c ∈ word.take w, isDigit b c := fun c hc => hdigits c (List.mem_of_mem_take hc)
  have hne : word.take w ≠ [] := List.ne_nil_of_length_pos (by omega)
  have hdrop : word.drop w ≠ [] := List.ne_nil_of_length_pos (by rw [List.length_drop]; omega)
  obtain ⟨c, word', hword⟩ := List.exists_cons_of_ne_nil hdrop
  refine ⟨c, word' ++ rest, hdigits c (List.mem_of_mem_drop (i := w) (by simp [hword])), ?_⟩
  conv_lhs => rw [← List.take_append_drop w word, List.append_assoc, hword, List.cons_append]
  exact digits_append htake hne hlen.le (.inl hlen)

/-- What stands in front of the digits is read no number from. -/
theorem digits_none (hc : isDigit b c = false) : digits b w (c :: rest) = none := by
  have htake : ((c :: rest).take w).takeWhile (isDigit b) = [] := by
    cases w with
    | zero => rfl
    | succ w => rw [List.take_succ_cons, List.takeWhile_cons_of_neg (by simp [hc])]
  simp only [digits, htake, if_true]

theorem dropWhile_digits (hdigits : ∀ c ∈ word, isDigit b c) (hne : word ≠ []) :
    (word ++ rest).dropWhile isSpace = word ++ rest := by
  obtain ⟨c, word, rfl⟩ := List.exists_cons_of_ne_nil hne
  exact isSpace_dropWhile (not_isSpace_of_isDigit (hdigits c List.mem_cons_self))

theorem number_append (hdigits : ∀ c ∈ word, isDigit b c) (hne : word ≠ []) (hw : word.length ≤ w)
    (hend : word.length = w ∨ ∀ c ∈ rest.head?, isDigit b c = false) :
    number b w (word ++ rest) = some (value b word, rest) := by
  rw [number, dropWhile_digits hdigits hne, digits_append hdigits hne hw hend]

/-- A number of exactly `w` digits is read whatever is behind it. -/
theorem number_padded (hb : 1 < b) (hb' : b ≤ 16) (hw : 0 < w) (h : n < b ^ w) :
    number b w (padded b w n ++ rest) = some (n, rest) := by
  have hlen := length_padded hb hw h
  rw [number_append (isDigit_padded hb hb' w n) padded_ne_nil hlen.le (.inl hlen),
    value_padded hb hb']

theorem sign_of_isDigit (h : isDigit b c) : sign (c :: rest) = (false, c :: rest) := by
  unfold sign
  split
  · next heq =>
    obtain ⟨rfl, rfl⟩ := List.cons.inj heq
    exact absurd h (by simp [isDigit, digitValue, symbolValue])
  · next heq =>
    obtain ⟨rfl, rfl⟩ := List.cons.inj heq
    exact absurd h (by simp [isDigit, digitValue, symbolValue])
  · rfl

theorem sign_toDigits (hb : 1 < b) (hb' : b ≤ 16) :
    sign (Nat.toDigits b n ++ rest) = (false, Nat.toDigits b n ++ rest) := by
  have hdigits := isDigit_toDigits hb hb' n
  obtain ⟨c, word, hword⟩ := List.exists_cons_of_ne_nil (Nat.toDigits_ne_nil (b := b) (n := n))
  rw [hword] at hdigits ⊢
  exact sign_of_isDigit (hdigits c List.mem_cons_self)

theorem integer_toDigits (hend : ∀ c ∈ rest.head?, isDigit 10 c = false) :
    integer (Nat.toDigits 10 n ++ rest) = some ((n : Int), rest) := by
  have hdigits := isDigit_toDigits (b := 10) (by decide) (by decide) n
  have hw : (Nat.toDigits 10 n).length ≤ (Nat.toDigits 10 n ++ rest).length := by simp
  simp only [integer, dropWhile_digits hdigits Nat.toDigits_ne_nil,
    sign_toDigits (b := 10) (by decide) (by decide),
    digits_append hdigits Nat.toDigits_ne_nil hw (.inr hend),
    value_toDigits (b := 10) (by decide) (by decide), Option.map_some, signed]
  rfl

/-! ## Big numbers -/

/-- `mpz_get_str`. -/
def signedDigits (b : Nat) (n : Int) : List Char :=
  (if n < 0 then ['-'] else []) ++ Nat.toDigits b n.natAbs

def minus : List Char → Bool × List Char
  | '-' :: l => (true, l)
  | l => (false, l)

/-- `mpz_set_str`, which takes blanks between the digits. -/
def mpzSetStr (b : Nat) (l : List Char) : Option Int :=
  let (negative, l) := minus (l.dropWhile isSpace)
  let word := l.filter fun c => !isSpace c
  if l.head?.any (isDigit b) ∧ word.all (isDigit b) then some (signed negative (value b word))
  else none

theorem minus_of_isDigit (h : isDigit b c) : minus (c :: rest) = (false, c :: rest) := by
  unfold minus
  split
  · next heq =>
    obtain ⟨rfl, rfl⟩ := List.cons.inj heq
    exact absurd h (by simp [isDigit, digitValue, symbolValue])
  · rfl

theorem mpzSetStr_signedDigits (hb : 1 < b) (hb' : b ≤ 16) (hu : ∀ c ∈ u, isSpace c) (n : Int) :
    mpzSetStr b (u ++ signedDigits b n) = some n := by
  have hdigits := isDigit_toDigits hb hb' n.natAbs
  have hvalue := value_toDigits hb hb' n.natAbs
  obtain ⟨c, word, hword⟩ := List.exists_cons_of_ne_nil (Nat.toDigits_ne_nil (b := b) (n := n.natAbs))
  rw [hword] at hdigits hvalue
  have hc := hdigits c List.mem_cons_self
  have hfilter : (c :: word).filter (fun c => !isSpace c) = c :: word :=
    List.filter_eq_self.2 fun d hd => by simp [not_isSpace_of_isDigit (hdigits d hd)]
  have hall : (c :: word).all (isDigit b) := by simpa using hdigits
  have hdrop : minus ((u ++ signedDigits b n).dropWhile isSpace) = (decide (n < 0), c :: word) := by
    rw [signedDigits, hword]
    by_cases hneg : n < 0
    · rw [if_pos hneg, List.singleton_append, blanks_dropWhile hu (by decide), decide_eq_true hneg]
      rfl
    · rw [if_neg hneg, List.nil_append, blanks_dropWhile hu (not_isSpace_of_isDigit hc),
        decide_eq_false hneg, minus_of_isDigit hc]
  simp only [mpzSetStr, hdrop, hfilter, hall, hvalue, signed, List.head?_cons, Option.any_some, hc,
    and_self, if_true, decide_eq_true_eq]
  congr 1
  split <;> omega

/-! ## Tokens -/

/-- `strsep`, with `none` for the null pointer. -/
def strsep (d : Char) : Option (List Char) → Option (List Char × Option (List Char))
  | none => none
  | some l => some (l.takeWhile (· ≠ d), match l.dropWhile (· ≠ d) with
    | [] => none
    | _ :: rest => some rest)

/-- Tokens with a delimiter behind each. -/
def joined (d : Char) : List (List Char) → List Char → List Char
  | [], last => last
  | word :: words, last => word ++ d :: joined d words last

theorem strsep_append (h : d ∉ word) :
    strsep d (some (word ++ d :: rest)) = some (word, some rest) := by
  have hword : ∀ c ∈ word, (fun c => decide (c ≠ d)) c = true := by
    intro c hc
    simp only [decide_eq_true_eq]
    rintro rfl
    exact h hc
  rw [strsep, List.takeWhile_append_of_pos hword, List.dropWhile_append_of_pos hword,
    List.takeWhile_cons_of_neg (by simp), List.dropWhile_cons_of_neg (by simp), List.append_nil]

theorem strsep_joined {words : List (List Char)} {last : List Char} (h : d ∉ word) :
    strsep d (some (joined d (word :: words) last)) = some (word, some (joined d words last)) :=
  strsep_append h

theorem notMem_of_digits (h : ∀ c ∈ word, isDigit b c) (hd : isDigit b d = false) : d ∉ word :=
  fun hmem => by simp [h d hmem] at hd

theorem notMem_signedDigits {n : Int} (hb : 1 < b) (hb' : b ≤ 16) (hd : isDigit b d = false)
    (hminus : d ≠ '-') : d ∉ signedDigits b n := by
  rw [signedDigits, List.mem_append, not_or]
  refine ⟨?_, notMem_of_digits (isDigit_toDigits hb hb' _) hd⟩
  split
  · simpa using hminus
  · exact List.not_mem_nil

end Text
