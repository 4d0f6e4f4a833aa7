import Blackadder.Lib.Calendar
import Blackadder.Lib.Text
import Blackadder.Pla.Header
import Blackadder.Pla.Words

/-!
# The file of a certificate

`libpla_io.c`: the keys and the certificate of a node as a text, and back.
-/

namespace Blackadder.Pla

open Calendar Text

/-- What the C library of a node decides. -/
structure Host where
  zone : Zone
  /-- Whether `strptime` takes a sign in front of a year. -/
  yearSign : Bool
  /-- What `sscanf` stores for a `%d` that is no `int`. -/
  wide : Int → UInt32

/-- `elem_t`, as the file has it. -/
abbrev Words := {words : List UInt32 // words.length = 6}

/-- The words as the arithmetic has them. -/
def Words.toGnb (w : Words) : Gnb.Words := ⟨(w.val.map UInt32.toBitVec).toArray, by simp [w.property]⟩

/-- The words of a result of the arithmetic. -/
def Words.ofGnb (a : Gnb.Words) : Words := ⟨a.toList.map UInt32.ofBitVec, by simp⟩

/-- `struct key_info`. The reader computes the rest of the point from `x` and its bit. -/
structure KeyInfo where
  x : Words
  eYB8 : Bool
  rho : Words
  b8 : Bool
deriving DecidableEq

/-- `struct cert_info`. -/
structure CertState where
  rid : Option (Octets 32)
  identity : UInt32
  deleg : UInt8
  rights : UInt8
  notBefore : Int
  notAfter : Int
  sigma : Int
  r : Octets 20
  s : Int
deriving DecidableEq

structure NodeState where
  issuer : KeyInfo
  subject : KeyInfo
  ci : CertState
deriving DecidableEq

/-- The fields that the identity hash is taken of. -/
def CertState.info (ci : CertState) : CertInfo where
  rid := ci.rid
  identity := ci.identity
  notBefore := UInt32.ofInt ci.notBefore
  notAfter := UInt32.ofInt ci.notAfter
  rights := ci.rights
  deleg := ci.deleg

/-! ## Writing -/

def libplaIoElemToHex (src : Words) : List Char :=
  src.val.flatMap (fun w => padded 16 8 w.toNat ++ [' ']) ++ ['\n']

def libplaIoHexdump (buf : List UInt8) : List Char := buf.flatMap fun b => padded 16 2 b.toNat

/-- A compression bit as `%d`. -/
def printBit (b : Bool) : List Char := [if b then '1' else '0']

def libplaIoFprintPublicKey (node : KeyInfo) : List Char :=
  "\"".toList ++ libplaIoElemToHex node.x ++ printBit node.eYB8 ++ "\n".toList ++
    libplaIoElemToHex node.rho ++ printBit node.b8 ++ "\"\n".toList

/-- What is written for a rendezvous id. -/
def ridText : Option (Octets 32) → List Char
  | none => "NULL".toList
  | some rid => libplaIoHexdump rid.val

/-- `localtime_r`, which fails where `tm_year` is no `int`. -/
def localtimeR (zone : Zone) (t : Int) : Option Moment :=
  let m := ofSeconds (zone.local t)
  if -2 ^ 31 ≤ m.year - 1900 ∧ m.year - 1900 < 2 ^ 31 then some m else none

/-- `strftime` with `%Y-%m-%d %H:%M:%S`. -/
def strftime (m : Moment) : List Char :=
  signedDigits 10 m.year ++ '-' :: (padded 10 2 m.month.toNat ++ '-' ::
    (padded 10 2 m.day.toNat ++ ' ' :: (padded 10 2 m.hour.toNat ++ ':' ::
      (padded 10 2 m.minute.toNat ++ ':' :: padded 10 2 m.second.toNat))))

/-- `none` stands for a text of a `struct tm` that was not set. -/
def libplaIoWriteNodeStateS (host : Host) (node : NodeState) : Option (List Char) := do
  let tmNb ← localtimeR host.zone node.ci.notBefore
  let tmNa ← localtimeR host.zone node.ci.notAfter
  let nb := strftime tmNb
  let na := strftime tmNa
  return "(cert \n".toList ++ " (issuer\n".toList ++ "  (pub-key\n".toList ++
    libplaIoFprintPublicKey node.issuer ++ "   locator ".toList ++ "\"NULL\"".toList ++
    "\n".toList ++ "  )\n".toList ++ " )\n".toList ++ " (subject\n".toList ++
    "  (pub-key\n".toList ++ libplaIoFprintPublicKey node.subject ++ "  )\n".toList ++
    " )\n".toList ++ " (rid \"".toList ++
    ridText node.ci.rid ++ "\")\n".toList ++
    " (identity \"".toList ++ Nat.toDigits 10 node.ci.identity.toNat ++ "\")\n".toList ++
    " (valid not-before \"".toList ++ nb ++ "\" not-after \"".toList ++ na ++ "\")\n".toList ++
    " (rights \"".toList ++ Nat.toDigits 10 node.ci.rights.toNat ++ "\")\n".toList ++
    " (deleg \"".toList ++ Nat.toDigits 10 node.ci.deleg.toNat ++ "\")\n".toList ++
    " (private-key \"".toList ++ signedDigits 16 node.ci.sigma ++ "\")\n".toList ++
    " (signature\n\"".toList ++ libplaIoHexdump node.ci.r.val ++ "\n".toList ++
    signedDigits 16 node.ci.s ++ "\"\n )\n".toList ++ ")\n".toList

/-! ## Reading -/

/-- The loops of `libpla_io_string_hex_to_elem` and `libpla_io_string_hexread`: a number of `digits`
digits after another, `step` characters apart. -/
def hexNumbers (digits step : Nat) : Nat → List Char → Option (List Nat × List Char)
  | 0, cur => some ([], cur)
  | n + 1, cur => do
    let (v, _) ← number 16 digits cur
    let (vs, cur) ← hexNumbers digits step n (cur.drop step)
    return (v :: vs, cur)

def libplaIoStringHexToElem (source : List Char) : Option (Words × List Char) := do
  let (vs, cur) ← hexNumbers 8 9 6 source
  if h : (vs.map UInt32.ofNat).length = 6 then return (⟨vs.map UInt32.ofNat, h⟩, cur) else none

def libplaIoStringHexread (source : List Char) (len : Nat) : Option (Octets len × List Char) := do
  let (vs, cur) ← hexNumbers 2 2 len source
  if h : (vs.map UInt8.ofNat).length = len then return (⟨vs.map UInt8.ofNat, h⟩, cur) else none

def scanBit (cur : List Char) : Option Bool := do
  let (v, _) ← integer cur
  if v = 0 then return false else if v = 1 then return true else none

def readKeyInfo (cur : List Char) : Option KeyInfo := do
  let (x, cur) ← libplaIoStringHexToElem cur
  let cur := cur.drop 1
  let eYB8 ← scanBit cur
  let cur := cur.drop 2
  let (rho, cur) ← libplaIoStringHexToElem cur
  let cur := cur.drop 1
  let b8 ← scanBit cur
  return { x, eYB8, rho, b8 }

/-- `%Y`. -/
def strptimeYear (host : Host) (l : List Char) : Option (Int × List Char) :=
  let l := l.dropWhile isSpace
  let (negative, l) := if host.yearSign then sign l else (false, l)
  (digits 10 4 l).map fun (n, l) => (signed negative n, l)

/-- The other fields of a time. -/
def strptimeField (lo hi : Nat) (l : List Char) : Option (Int × List Char) := do
  let (n, l) ← number 10 2 l
  if lo ≤ n ∧ n ≤ hi then return ((n : Int), l) else none

def literal (c : Char) : List Char → Option (List Char)
  | d :: l => if d = c then some l else none
  | [] => none

/-- `strptime` with `%Y-%m-%d %H:%M:%S`. -/
def strptime (host : Host) (l : List Char) : Option Moment := do
  let (year, l) ← strptimeYear host l
  let l ← literal '-' l
  let (month, l) ← strptimeField 1 12 l
  let l ← literal '-' l
  let (day, l) ← strptimeField 1 31 l
  let l := l.dropWhile isSpace
  let (hour, l) ← strptimeField 0 23 l
  let l ← literal ':' l
  let (minute, l) ← strptimeField 0 59 l
  let l ← literal ':' l
  let (second, _) ← strptimeField 0 60 l
  return { year, month, day, hour, minute, second }

/-- `mktime` with the `tm_isdst` of `0` that `bzero` left. -/
def mktime (zone : Zone) (tm : Moment) : Int := zone.standard (toSeconds tm)

def scanIdentity (host : Host) (cur : List Char) : Option UInt32 := do
  let (v, _) ← integer cur
  return if -2 ^ 31 ≤ v ∧ v < 2 ^ 31 then UInt32.ofInt v else host.wide v

/-- An `int` that is stored at a `uint8_t`, which gets its least byte. -/
def scanByte (cur : List Char) : Option UInt8 := do
  let (v, _) ← integer cur
  return UInt8.ofInt v

/-- `RID_LEN`. -/
def ridLen : Nat := 32

/-- A text that is too short stands for no rendezvous id. -/
def readRid (cur : List Char) : Option (Option (Octets 32)) :=
  if cur.length < ridLen then some none
  else (libplaIoStringHexread cur 32).map fun (rid, _) => some rid

/-- `none` stands for `exit`, for a field that is not set and for a text that fills the buffer. -/
def libplaIoReadNodeStateStreamS (host : Host) (file : List Char) : Option NodeState := do
  guard (file.length < 2000)
  let (_, ptr) ← strsep '"' (some file)
  let (cur, ptr) ← strsep '"' ptr
  let issuer ← readKeyInfo cur
  let (_, ptr) ← strsep '"' ptr
  let (_, ptr) ← strsep '"' ptr
  let (_, ptr) ← strsep '"' ptr
  let (cur, ptr) ← strsep '"' ptr
  let subject ← readKeyInfo cur
  let (_, ptr) ← strsep '"' ptr
  let (cur, ptr) ← strsep '"' ptr
  let rid ← readRid cur
  let (_, ptr) ← strsep '"' ptr
  let (cur, ptr) ← strsep '"' ptr
  let identity ← scanIdentity host cur
  let (_, ptr) ← strsep '"' ptr
  -- the time is read in front of the next token, which is skipped then
  let next ← ptr
  let tmNb ← strptime host next
  let (_, ptr) ← strsep '"' ptr
  let (_, ptr) ← strsep '"' ptr
  let next ← ptr
  let tmNa ← strptime host next
  let (_, ptr) ← strsep '"' ptr
  let (_, ptr) ← strsep '"' ptr
  let (cur, ptr) ← strsep '"' ptr
  let rights ← scanByte cur
  let (_, ptr) ← strsep '"' ptr
  let (cur, ptr) ← strsep '"' ptr
  let deleg ← scanByte cur
  let (_, ptr) ← strsep '"' ptr
  let (cur, ptr) ← strsep '"' ptr
  let sigma ← mpzSetStr 16 cur
  let (_, ptr) ← strsep '"' ptr
  let (cur, _) ← strsep '"' ptr
  let (r, cur) ← libplaIoStringHexread cur 20
  let s ← mpzSetStr 16 cur
  return {
    issuer, subject
    ci := {
      rid, identity, rights, deleg, sigma, r, s
      notBefore := mktime host.zone tmNb
      notAfter := mktime host.zone tmNa } }

/-! ## Keys -/

variable {host : Host} {rest sep : List Char} {w : Nat} {l : List Nat} {m : Moment} {y : Int}

theorem hexNumbers_flatMap (step : Nat) (sep rest : List Char) (hw : 0 < w) (hstep : step = w + sep.length)
    (hl : ∀ v ∈ l, v < 16 ^ w) :
    hexNumbers w step l.length (l.flatMap (fun v => padded 16 w v ++ sep) ++ rest) =
      some (l, rest) := by
  subst hstep
  induction l with
  | nil => rfl
  | cons v l ih =>
    have hv := hl v List.mem_cons_self
    have hlen : (padded 16 w v ++ sep).length = w + sep.length := by
      rw [List.length_append, length_padded (by decide) hw hv]
    simp only [List.flatMap_cons, List.length_cons, List.append_assoc, hexNumbers,
      number_padded (b := 16) (by decide) (by decide) hw hv, Option.bind_eq_bind, Option.bind_some]
    rw [← List.append_assoc, ← hlen, List.drop_left, hlen,
      ih fun v hv => hl v (List.mem_cons_of_mem _ hv)]
    rfl

theorem libplaIoStringHexToElem_elemToHex (src : Words) :
    libplaIoStringHexToElem (libplaIoElemToHex src ++ rest) = some (src, '\n' :: rest) := by
  have hl : ∀ v ∈ src.val.map UInt32.toNat, v < 16 ^ 8 := by
    intro v hv
    obtain ⟨u, -, rfl⟩ := List.mem_map.1 hv
    exact u.toNat_lt
  have hread := hexNumbers_flatMap 9 [' '] ('\n' :: rest) (by decide) rfl hl
  rw [List.length_map, src.property, List.flatMap_map] at hread
  have hback : (src.val.map UInt32.toNat).map UInt32.ofNat = src.val := by
    rw [List.map_map]
    exact List.map_id'' (fun u => by simp) _
  have htext : libplaIoElemToHex src ++ rest =
      src.val.flatMap (fun w => padded 16 8 w.toNat ++ [' ']) ++ '\n' :: rest := by
    simp [libplaIoElemToHex]
  simp only [libplaIoStringHexToElem, htext, hread, Option.bind_eq_bind, Option.bind_some, hback,
    src.property, dite_true]
  rfl

theorem Words.toGnb_ofGnb (a : Gnb.Words) : (Words.ofGnb a).toGnb = a := by
  apply Vector.toList_inj.mp
  simp [Words.toGnb, Words.ofGnb, Function.comp_def]

/-- An element of the field gets through the file. -/
theorem stringHexToElem_holds {a : Gnb.Words} {e : Gnb.Elem} (ha : a.Holds e) :
    ∃ w, libplaIoStringHexToElem (libplaIoElemToHex (.ofGnb a) ++ rest) = some (w, '\n' :: rest) ∧
      w.toGnb.Holds e := by
  refine ⟨.ofGnb a, libplaIoStringHexToElem_elemToHex _, ?_⟩
  rwa [Words.toGnb_ofGnb]

theorem libplaIoStringHexread_hexdump {n : Nat} (buf : Octets n) :
    libplaIoStringHexread (libplaIoHexdump buf.val ++ rest) n = some (buf, rest) := by
  have hl : ∀ v ∈ buf.val.map UInt8.toNat, v < 16 ^ 2 := by
    intro v hv
    obtain ⟨u, -, rfl⟩ := List.mem_map.1 hv
    exact u.toNat_lt
  have hread := hexNumbers_flatMap 2 [] rest (by decide) rfl hl
  rw [List.length_map, buf.property, List.flatMap_map] at hread
  have hback : (buf.val.map UInt8.toNat).map UInt8.ofNat = buf.val := by
    rw [List.map_map]
    exact List.map_id'' (fun u => by simp) _
  simp only [List.append_nil] at hread
  simp only [libplaIoStringHexread, libplaIoHexdump, hread, Option.bind_eq_bind, Option.bind_some,
    hback, buf.property, dite_true]
  rfl

theorem scanBit_printBit (b : Bool) (hend : ∀ c ∈ rest.head?, isDigit 10 c = false) :
    scanBit (printBit b ++ rest) = some b := by
  have hread : integer (printBit b ++ rest) = some (((if b then 1 else 0 : Nat) : Int), rest) := by
    have hprint : printBit b = Nat.toDigits 10 (if b then 1 else 0) := by cases b <;> rfl
    rw [hprint, integer_toDigits hend]
  simp only [scanBit, hread, Option.bind_eq_bind, Option.bind_some]
  cases b <;> rfl

/-- What stands between the quotes. -/
def keyText (k : KeyInfo) : List Char :=
  libplaIoElemToHex k.x ++ (printBit k.eYB8 ++ ('\n' :: (libplaIoElemToHex k.rho ++ printBit k.b8)))

theorem readKeyInfo_keyText (k : KeyInfo) : readKeyInfo (keyText k) = some k := by
  have hbit : ∀ rest, scanBit (printBit k.eYB8 ++ '\n' :: rest) = some k.eYB8 := fun rest =>
    scanBit_printBit _ fun c hc => by
      obtain rfl := Option.some.inj hc
      rfl
  have hlast : scanBit (printBit k.b8 ++ []) = some k.b8 := scanBit_printBit _ (by simp)
  rw [List.append_nil] at hlast
  have hlen : ∀ rest, (printBit k.eYB8 ++ '\n' :: rest).drop 2 = rest := fun rest => rfl
  simp only [readKeyInfo, keyText, libplaIoStringHexToElem_elemToHex, Option.bind_eq_bind,
    Option.bind_some, List.drop_succ_cons, List.drop_zero, hbit, hlen, hlast]
  rfl

/-! ## Times -/

/-- Whether `strptime` reads a year that `strftime` wrote. -/
def Host.ReadsYear (host : Host) (y : Int) : Prop :=
  y.natAbs < 10 ^ 4 ∧ (0 ≤ y ∨ host.yearSign = true)

instance : Decidable (host.ReadsYear y) := inferInstanceAs (Decidable (_ ∧ _))

theorem literal_cons {c : Char} : literal c (c :: rest) = some rest := by simp [literal]

theorem strptimeYear_signedDigits (h : host.ReadsYear y) :
    strptimeYear host (signedDigits 10 y ++ '-' :: rest) = some (y, '-' :: rest) := by
  have hdigits := isDigit_toDigits (b := 10) (by decide) (by decide) y.natAbs
  have hlen : (Nat.toDigits 10 y.natAbs).length ≤ 4 :=
    (Nat.length_toDigits_le_iff (by decide) (by decide)).2 h.1
  have hend : ∀ c ∈ ('-' :: rest).head?, isDigit 10 c = false := by
    intro c hc
    obtain rfl := Option.some.inj hc
    rfl
  have hread := digits_append hdigits Nat.toDigits_ne_nil hlen (.inr hend)
  rw [value_toDigits (by decide) (by decide)] at hread
  by_cases hneg : y < 0
  · have hsign : host.yearSign = true := h.2.resolve_left (by omega)
    have hspace : (signedDigits 10 y ++ '-' :: rest).dropWhile isSpace =
        '-' :: (Nat.toDigits 10 y.natAbs ++ '-' :: rest) := by
      rw [signedDigits, if_pos hneg]
      exact isSpace_dropWhile (by decide)
    simp only [strptimeYear, hspace, hsign, if_true, sign, hread, Option.map_some, signed]
    congr 2
    omega
  · have hspace : (signedDigits 10 y ++ '-' :: rest).dropWhile isSpace =
        Nat.toDigits 10 y.natAbs ++ '-' :: rest := by
      rw [signedDigits, if_neg hneg, List.nil_append]
      exact dropWhile_digits hdigits Nat.toDigits_ne_nil
    have hsign : (if host.yearSign = true then sign (Nat.toDigits 10 y.natAbs ++ '-' :: rest)
        else (false, Nat.toDigits 10 y.natAbs ++ '-' :: rest)) =
        (false, Nat.toDigits 10 y.natAbs ++ '-' :: rest) := by
      rw [sign_toDigits (by decide) (by decide), ite_self]
    simp only [strptimeYear, hspace, hsign, hread, Option.map_some, signed]
    congr 2
    simp
    omega

theorem strptimeField_padded {n : Int} (lo hi : Nat) (hlo : (lo : Int) ≤ n) (hhi : n ≤ hi)
    (hw : hi < 100) :
    strptimeField lo hi (padded 10 2 n.toNat ++ rest) = some (n, rest) := by
  have hn : n.toNat < 10 ^ 2 := by omega
  simp only [strptimeField, number_padded (b := 10) (by decide) (by decide) (by decide : 0 < 2) hn,
    Option.bind_eq_bind, Option.bind_some]
  rw [if_pos (by omega), Int.toNat_of_nonneg (by omega)]
  rfl

theorem strptime_strftime (t : Int) (h : host.ReadsYear (ofSeconds t).year) :
    strptime host (strftime (ofSeconds t) ++ rest) = some (ofSeconds t) := by
  obtain ⟨hmonth, hday, hhour, hminute, hsecond⟩ := ofSeconds_fields t
  have hspace : ∀ rest : List Char,
      (' ' :: (padded 10 2 (ofSeconds t).hour.toNat ++ rest)).dropWhile isSpace =
        padded 10 2 (ofSeconds t).hour.toNat ++ rest := fun rest => by
    rw [List.dropWhile_cons_of_pos (by decide), dropWhile_digits
      (isDigit_padded (b := 10) (by decide) (by decide) _ _) padded_ne_nil]
  simp only [strftime, strptime, List.append_assoc, List.cons_append, Option.bind_eq_bind,
    strptimeYear_signedDigits h, Option.bind_some, literal_cons,
    strptimeField_padded 1 12 hmonth.1 hmonth.2 (by decide),
    strptimeField_padded 1 31 hday.1 hday.2 (by decide), hspace,
    strptimeField_padded 0 23 hhour.1 (Int.lt_add_one_iff.1 hhour.2) (by decide),
    strptimeField_padded 0 59 hminute.1 (Int.lt_add_one_iff.1 hminute.2) (by decide),
    strptimeField_padded 0 60 hsecond.1 (by omega) (by decide)]
  rfl

theorem strptimeYear_long (h : ¬ host.ReadsYear y) :
    (strptimeYear host (signedDigits 10 y ++ rest)).bind (fun r => literal '-' r.2) = none := by
  have hdigits := isDigit_toDigits (b := 10) (by decide) (by decide) y.natAbs
  -- of the digits of a long year one is left, where a hyphen is expected
  have hlong : 10 ^ 4 ≤ y.natAbs → ∃ n c word, isDigit 10 c ∧
      digits 10 4 (Nat.toDigits 10 y.natAbs ++ rest) = some (n, c :: word) := by
    intro hy
    have hlen : 4 < (Nat.toDigits 10 y.natAbs).length := by
      by_contra hle
      have := (Nat.length_toDigits_le_iff (b := 10) (k := 4) (by decide) (by decide)).1 (not_lt.1 hle)
      omega
    exact ⟨_, digits_cut hdigits (by decide) hlen⟩
  have hstop : ∀ {c : Char} {word : List Char}, isDigit 10 c → literal '-' (c :: word) = none := by
    rintro c word hc
    refine if_neg ?_
    rintro rfl
    cases hc
  by_cases hneg : y < 0
  · have hspace : (signedDigits 10 y ++ rest).dropWhile isSpace =
        '-' :: (Nat.toDigits 10 y.natAbs ++ rest) := by
      rw [signedDigits, if_pos hneg]
      exact isSpace_dropWhile (by decide)
    by_cases hsign : host.yearSign = true
    · obtain ⟨n, c, word, hc, hread⟩ := hlong (by
        by_contra hy
        exact h ⟨by omega, .inr hsign⟩)
      simp only [strptimeYear, hspace, hsign, if_true, sign, hread, Option.map_some, Option.bind_some]
      exact hstop hc
    · simp only [strptimeYear, hspace, hsign, if_false, Bool.false_eq_true,
        digits_none (b := 10) (c := '-') rfl]
      rfl
  · have hspace : (signedDigits 10 y ++ rest).dropWhile isSpace =
        Nat.toDigits 10 y.natAbs ++ rest := by
      rw [signedDigits, if_neg hneg, List.nil_append]
      exact dropWhile_digits hdigits Nat.toDigits_ne_nil
    have hsign : (if host.yearSign = true then sign (Nat.toDigits 10 y.natAbs ++ rest)
        else (false, Nat.toDigits 10 y.natAbs ++ rest)) =
        (false, Nat.toDigits 10 y.natAbs ++ rest) := by
      rw [sign_toDigits (by decide) (by decide), ite_self]
    obtain ⟨n, c, word, hc, hread⟩ := hlong (by
      by_contra hy
      exact h ⟨by omega, .inl (by omega)⟩)
    simp only [strptimeYear, hspace, hsign, hread, Option.map_some, Option.bind_some]
    exact hstop hc

theorem strptime_long (h : ¬ host.ReadsYear m.year) : strptime host (strftime m ++ rest) = none := by
  simp only [strftime, strptime, List.append_assoc, List.cons_append, Option.bind_eq_bind]
  refine Option.bind_eq_none_iff.2 fun r hr => ?_
  rw [Option.bind_eq_none_iff.1 (strptimeYear_long h) r hr, Option.bind_none]

/-! ## The file -/

theorem quote_elemToHex (src : Words) : '"' ∉ libplaIoElemToHex src := by
  simp only [libplaIoElemToHex, List.mem_append, List.mem_flatMap, not_or, not_exists, not_and,
    List.mem_singleton]
  refine ⟨fun w _ => ⟨?_, by decide⟩, by decide⟩
  exact notMem_of_digits (isDigit_padded (b := 16) (by decide) (by decide) _ _) rfl

theorem quote_hexdump (buf : List UInt8) : '"' ∉ libplaIoHexdump buf := by
  simp only [libplaIoHexdump, List.mem_flatMap, not_exists, not_and]
  exact fun b _ => notMem_of_digits (isDigit_padded (b := 16) (by decide) (by decide) _ _) rfl

theorem quote_keyText (k : KeyInfo) : '"' ∉ keyText k := by
  have hbit : ∀ b, '"' ∉ printBit b := by decide
  simp [keyText, quote_elemToHex, hbit]

theorem quote_ridText (rid : Option (Octets 32)) : '"' ∉ ridText rid := by
  cases rid with
  | none => decide
  | some rid => exact quote_hexdump _

theorem quote_toDigits (n : Nat) : '"' ∉ Nat.toDigits 10 n :=
  notMem_of_digits (isDigit_toDigits (by decide) (by decide) n) rfl

theorem quote_signedDigits (n : Int) : '"' ∉ signedDigits 16 n :=
  notMem_signedDigits (by decide) (by decide) rfl (by decide)

theorem quote_strftime (m : Moment) : '"' ∉ strftime m := by
  have hyear : '"' ∉ signedDigits 10 m.year :=
    notMem_signedDigits (by decide) (by decide) rfl (by decide)
  have hfield : ∀ n, '"' ∉ padded 10 2 n := fun n =>
    notMem_of_digits (isDigit_padded (b := 10) (by decide) (by decide) _ _) rfl
  simp [strftime, hyear, hfield]

/-- The file by what stands between its quotes. -/
def fileText (issuer subject rid identity nb na rights deleg sigma signature : List Char) :
    List Char :=
  joined '"' ["(cert \n".toList ++ (" (issuer\n".toList ++ "  (pub-key\n".toList), issuer,
    '\n' :: "   locator ".toList, "NULL".toList,
    '\n' :: ("  )\n".toList ++ (" )\n".toList ++ (" (subject\n".toList ++ "  (pub-key\n".toList))),
    subject, '\n' :: ("  )\n".toList ++ (" )\n".toList ++ " (rid ".toList)), rid,
    ")\n".toList ++ " (identity ".toList, identity,
    ")\n".toList ++ " (valid not-before ".toList, nb, " not-after ".toList, na,
    ")\n".toList ++ " (rights ".toList, rights, ")\n".toList ++ " (deleg ".toList, deleg,
    ")\n".toList ++ " (private-key ".toList, sigma, ")\n".toList ++ " (signature\n".toList, signature]
    ("\n )\n".toList ++ ")\n".toList)

variable {node : NodeState} {tmNb tmNa : Moment}

/-- The file of a node, with the texts of its times. -/
def nodeText (node : NodeState) (nb na : List Char) : List Char :=
  fileText (keyText node.issuer) (keyText node.subject) (ridText node.ci.rid)
    (Nat.toDigits 10 node.ci.identity.toNat) nb na (Nat.toDigits 10 node.ci.rights.toNat)
    (Nat.toDigits 10 node.ci.deleg.toNat) (signedDigits 16 node.ci.sigma)
    (libplaIoHexdump node.ci.r.val ++ '\n' :: signedDigits 16 node.ci.s)

theorem write_eq (hNb : localtimeR host.zone node.ci.notBefore = some tmNb)
    (hNa : localtimeR host.zone node.ci.notAfter = some tmNa) :
    libplaIoWriteNodeStateS host node = some (nodeText node (strftime tmNb) (strftime tmNa)) := by
  -- the quotes in the literals of the writer
  have hquote : "\"".toList = ['"'] := rfl
  have hnewline : "\n".toList = ['\n'] := rfl
  have hend : "\"\n".toList = ['"', '\n'] := rfl
  have hnull : "\"NULL\"".toList = '"' :: ("NULL".toList ++ ['"']) := rfl
  have hrid : " (rid \"".toList = " (rid ".toList ++ ['"'] := rfl
  have hclose : "\")\n".toList = '"' :: ")\n".toList := rfl
  have hidentity : " (identity \"".toList = " (identity ".toList ++ ['"'] := rfl
  have hnb : " (valid not-before \"".toList = " (valid not-before ".toList ++ ['"'] := rfl
  have hna : "\" not-after \"".toList = '"' :: (" not-after ".toList ++ ['"']) := rfl
  have hrights : " (rights \"".toList = " (rights ".toList ++ ['"'] := rfl
  have hdeleg : " (deleg \"".toList = " (deleg ".toList ++ ['"'] := rfl
  have hsigma : " (private-key \"".toList = " (private-key ".toList ++ ['"'] := rfl
  have hsignature : " (signature\n\"".toList = " (signature\n".toList ++ ['"'] := rfl
  have hlast : "\"\n )\n".toList = '"' :: "\n )\n".toList := rfl
  rw [libplaIoWriteNodeStateS, hNb, hNa]
  refine congrArg some ?_
  conv_lhs => simp only [libplaIoFprintPublicKey, hquote, hnewline, hend, hnull, hrid, hclose,
    hidentity, hnb, hna, hrights, hdeleg, hsigma, hsignature, hlast, List.append_assoc,
    List.cons_append, List.nil_append]
  conv_rhs => simp only [nodeText, fileText, joined, keyText, List.append_assoc, List.cons_append]

/-- What `%d` reads of a number that `%u` wrote. -/
def Host.scanned (host : Host) (v : UInt32) : UInt32 :=
  if v < 2 ^ 31 then v else host.wide v.toNat

theorem integer_whole (n : Nat) : integer (Nat.toDigits 10 n) = some ((n : Int), []) := by
  have hread : integer (Nat.toDigits 10 n ++ []) = some ((n : Int), []) :=
    integer_toDigits (by simp)
  rwa [List.append_nil] at hread

theorem scanIdentity_toDigits (v : UInt32) :
    scanIdentity host (Nat.toDigits 10 v.toNat) = some (host.scanned v) := by
  simp only [scanIdentity, integer_whole, Option.bind_eq_bind, Option.bind_some, Host.scanned]
  by_cases hv : v < 2 ^ 31
  · have hv' : v.toNat < 2 ^ 31 := hv
    have hmod : (v.toNat : Int) % 2 ^ 32 = v.toNat := by omega
    rw [if_pos hv, if_pos (by omega), UInt32.ofInt, hmod, Int.toNat_natCast, UInt32.ofNat_toNat]
    rfl
  · have hv' : ¬ v.toNat < 2 ^ 31 := hv
    rw [if_neg hv, if_neg (by omega)]
    rfl

theorem scanByte_toDigits (v : UInt8) : scanByte (Nat.toDigits 10 v.toNat) = some v := by
  have hv := v.toNat_lt
  have hmod : (v.toNat : Int) % 2 ^ 8 = v.toNat := by omega
  simp only [scanByte, integer_whole, Option.bind_eq_bind, Option.bind_some, UInt8.ofInt, hmod,
    Int.toNat_natCast, UInt8.ofNat_toNat]
  rfl

theorem readRid_ridText (rid : Option (Octets 32)) : readRid (ridText rid) = some rid := by
  cases rid with
  | none => rfl
  | some rid =>
    have hlen : (ridText (some rid)).length = 64 := by
      have hbyte : ∀ b ∈ rid.val, (padded 16 2 b.toNat).length = 2 := fun b _ =>
        length_padded (by decide) (by decide) b.toNat_lt
      rw [ridText, libplaIoHexdump, List.length_flatMap, List.map_congr_left hbyte]
      simp [rid.property]
    have hread : libplaIoStringHexread (ridText (some rid)) 32 = some (rid, []) := by
      have hdump := @libplaIoStringHexread_hexdump [] 32 rid
      rwa [List.append_nil] at hdump
    rw [readRid, if_neg (by rw [hlen]; decide), hread, Option.map_some]

theorem bind_of_eq {α β : Type} {x : Option α} {a : α} {f : α → Option β} {o : Option β}
    (hx : x = some a) (h : f a = o) : x >>= f = o := by
  rw [hx]
  exact h

theorem bind_none_of_eq {α β : Type} {x : Option α} {f : α → Option β} (hx : x = none) :
    x >>= f = none := by
  rw [hx]
  rfl

variable {nb na : List Char} {oNb oNa : Option Moment}

theorem read_nodeText (hshort : (nodeText node nb na).length < 2000)
    (hnb : '"' ∉ nb) (hna : '"' ∉ na) (hoNb : ∀ rest, strptime host (nb ++ rest) = oNb)
    (hoNa : ∀ rest, strptime host (na ++ rest) = oNa) :
    libplaIoReadNodeStateStreamS host (nodeText node nb na) =
    oNb.bind fun tmNb => oNa.map fun tmNa => { node with ci := { node.ci with
      identity := host.scanned node.ci.identity
      notBefore := mktime host.zone tmNb
      notAfter := mktime host.zone tmNa } } := by
  have hsignature : '"' ∉ libplaIoHexdump node.ci.r.val ++ '\n' :: signedDigits 16 node.ci.s := by
    simp [quote_hexdump, quote_signedDigits]
  have hsigma : mpzSetStr 16 (signedDigits 16 node.ci.sigma) = some node.ci.sigma := by
    simpa using mpzSetStr_signedDigits (b := 16) (u := []) (by decide) (by decide) (by simp)
      node.ci.sigma
  have hs : mpzSetStr 16 ('\n' :: signedDigits 16 node.ci.s) = some node.ci.s := by
    simpa using mpzSetStr_signedDigits (b := 16) (u := ['\n']) (by decide) (by decide)
      (List.forall_mem_singleton.mpr (by decide)) node.ci.s
  rw [libplaIoReadNodeStateStreamS, guard, if_pos hshort, nodeText, fileText]
  refine bind_of_eq rfl (bind_of_eq (strsep_joined (by decide)) ?_)
  refine bind_of_eq (strsep_joined (quote_keyText _)) ?_
  refine bind_of_eq (readKeyInfo_keyText _) ?_
  refine bind_of_eq (strsep_joined (by decide)) (bind_of_eq (strsep_joined (by decide)) ?_)
  refine bind_of_eq (strsep_joined (by decide)) (bind_of_eq (strsep_joined (quote_keyText _)) ?_)
  refine bind_of_eq (readKeyInfo_keyText _) ?_
  refine bind_of_eq (strsep_joined (by decide)) (bind_of_eq (strsep_joined (quote_ridText _)) ?_)
  refine bind_of_eq (readRid_ridText _) ?_
  refine bind_of_eq (strsep_joined (by decide)) (bind_of_eq (strsep_joined (quote_toDigits _)) ?_)
  refine bind_of_eq (scanIdentity_toDigits _) ?_
  refine bind_of_eq (strsep_joined (by decide)) (bind_of_eq rfl ?_)
  cases oNb with
  | none => exact bind_none_of_eq (hoNb _)
  | some tmNb =>
    refine bind_of_eq (hoNb _) ?_
    refine bind_of_eq (strsep_joined hnb) (bind_of_eq (strsep_joined (by decide)) ?_)
    refine bind_of_eq rfl ?_
    cases oNa with
    | none => exact bind_none_of_eq (hoNa _)
    | some tmNa =>
      refine bind_of_eq (hoNa _) (bind_of_eq (strsep_joined hna) ?_)
      refine bind_of_eq (strsep_joined (by decide)) (bind_of_eq (strsep_joined (quote_toDigits _)) ?_)
      refine bind_of_eq (scanByte_toDigits _) ?_
      refine bind_of_eq (strsep_joined (by decide)) (bind_of_eq (strsep_joined (quote_toDigits _)) ?_)
      refine bind_of_eq (scanByte_toDigits _) ?_
      refine bind_of_eq (strsep_joined (by decide)) ?_
      refine bind_of_eq (strsep_joined (quote_signedDigits _)) (bind_of_eq hsigma ?_)
      refine bind_of_eq (strsep_joined (by decide)) (bind_of_eq (strsep_joined hsignature) ?_)
      exact bind_of_eq (libplaIoStringHexread_hexdump node.ci.r) (bind_of_eq hs rfl)

/-! ## The round trip -/

variable {t : Int}

/-- A time that comes back: daylight saving is not in effect, and its year is read. -/
def Host.Keeps (host : Host) (t : Int) : Prop :=
  host.zone.Standard t ∧ host.ReadsYear (ofSeconds (host.zone.local t)).year

/-- A file is written, and who reads it has the same keys and the same certificate, and puts the
identity hash into his packets with which the certificate was made. -/
def NodeState.RoundTrips (host : Host) (node : NodeState) : Prop :=
  ∃ text, libplaIoWriteNodeStateS host node = some text ∧
    ∃ node', libplaIoReadNodeStateStreamS host text = some node' ∧ node' = node ∧
      ∀ ripemd160, libplaCertCalculateIdHash ripemd160 node'.ci.info =
        libplaCertCalculateIdHash ripemd160 node.ci.info

theorem localtimeR_some (h : localtimeR host.zone t = some m) : m = ofSeconds (host.zone.local t) := by
  simp only [localtimeR] at h
  split at h
  · exact (Option.some.inj h).symm
  · cases h

theorem localtimeR_of_readsYear (h : host.ReadsYear (ofSeconds (host.zone.local t)).year) :
    localtimeR host.zone t = some (ofSeconds (host.zone.local t)) := by
  have hyear := h.1
  exact if_pos (by omega)

theorem mktime_local : mktime host.zone (ofSeconds (host.zone.local t)) = t ↔ host.zone.Standard t := by
  rw [mktime, toSeconds_ofSeconds, Zone.standard_local]

theorem scanned_eq {v : UInt32} : host.scanned v = v ↔ v < 2 ^ 31 ∨ host.wide v.toNat = v := by
  rw [Host.scanned]
  split
  · next h => simp [h]
  · next h => simp [h]

/-- What the reader finds for a time that was written. -/
def Host.readTime (host : Host) (t : Int) : Option Moment :=
  if host.ReadsYear (ofSeconds (host.zone.local t)).year then some (ofSeconds (host.zone.local t))
  else none

theorem readTime_some (h : host.readTime t = some m) :
    host.ReadsYear (ofSeconds (host.zone.local t)).year ∧ m = ofSeconds (host.zone.local t) := by
  rw [Host.readTime] at h
  split at h
  · next hyear => exact ⟨hyear, (Option.some.inj h).symm⟩
  · cases h

theorem strptime_local (h : localtimeR host.zone t = some m) :
    strptime host (strftime m ++ rest) = host.readTime t := by
  rw [localtimeR_some h, Host.readTime]
  split
  · next h => exact strptime_strftime _ h
  · next h => exact strptime_long h

theorem read_write {text : List Char} (hwrite : libplaIoWriteNodeStateS host node = some text)
    (hshort : text.length < 2000) :
    libplaIoReadNodeStateStreamS host text =
      (host.readTime node.ci.notBefore).bind fun tmNb =>
        (host.readTime node.ci.notAfter).map fun tmNa => { node with ci := { node.ci with
          identity := host.scanned node.ci.identity
          notBefore := mktime host.zone tmNb
          notAfter := mktime host.zone tmNa } } := by
  obtain ⟨tmNb, hNb, hrest⟩ := Option.bind_eq_some_iff.1 hwrite
  obtain ⟨tmNa, hNa, -⟩ := Option.bind_eq_some_iff.1 hrest
  rw [write_eq hNb hNa] at hwrite
  obtain rfl := Option.some.inj hwrite
  exact read_nodeText hshort (quote_strftime _) (quote_strftime _)
    (fun rest => strptime_local hNb) (fun rest => strptime_local hNa)

theorem certFile_iff (host : Host) (node : NodeState)
    (hshort : ∀ text ∈ libplaIoWriteNodeStateS host node, text.length < 2000) :
    node.RoundTrips host ↔
      host.Keeps node.ci.notBefore ∧ host.Keeps node.ci.notAfter ∧
        (node.ci.identity < 2 ^ 31 ∨ host.wide node.ci.identity.toNat = node.ci.identity) := by
  rw [← scanned_eq]
  constructor
  · rintro ⟨text, hwrite, node', hback, heq, -⟩
    rw [heq, read_write hwrite (hshort text hwrite)] at hback
    obtain ⟨tmNb, hNb, hrest⟩ := Option.bind_eq_some_iff.1 hback
    obtain ⟨tmNa, hNa, hnode⟩ := Option.map_eq_some_iff.1 hrest
    obtain ⟨hyearNb, rfl⟩ := readTime_some hNb
    obtain ⟨hyearNa, rfl⟩ := readTime_some hNa
    have hci := congrArg NodeState.ci hnode
    have hidentity := congrArg CertState.identity hci
    have hnb := congrArg CertState.notBefore hci
    have hna := congrArg CertState.notAfter hci
    exact ⟨⟨mktime_local.1 hnb, hyearNb⟩, ⟨mktime_local.1 hna, hyearNa⟩, hidentity⟩
  · rintro ⟨⟨hstdNb, hyearNb⟩, ⟨hstdNa, hyearNa⟩, hidentity⟩
    have hwrite : libplaIoWriteNodeStateS host node = some _ :=
      write_eq (localtimeR_of_readsYear hyearNb) (localtimeR_of_readsYear hyearNa)
    refine ⟨_, hwrite, node, ?_, rfl, fun _ => rfl⟩
    rw [read_write hwrite (hshort _ hwrite), Host.readTime, if_pos hyearNb, Host.readTime,
      if_pos hyearNa, Option.bind_some, Option.map_some, mktime_local.2 hstdNb,
      mktime_local.2 hstdNa, hidentity]

/-- Central Europe around the summer of 2009, with a library that cuts off greater numbers. -/
def centralEurope : Host where
  zone := Zone.fixed 3600 fun t => if 1238288400 ≤ t ∧ t < 1256432400 then 3600 else 0
  yearSign := false
  wide _ := 2 ^ 31 - 1

def someWords (w : UInt32) : Words := ⟨List.replicate 6 w, rfl⟩

def someNode (notBefore : Int) : NodeState where
  issuer := ⟨someWords 0x11, true, someWords 0xdeadbeef, false⟩
  subject := ⟨someWords 0, false, someWords 7, true⟩
  ci := { rid := none, identity := 5, deleg := 3, rights := 200, notBefore, notAfter := 1260000000
          sigma := 123456789, r := ⟨List.replicate 20 9, rfl⟩, s := 0 }

theorem certFile_winter : (someNode 1230000000).RoundTrips centralEurope :=
  (certFile_iff centralEurope (someNode 1230000000) (by decide +kernel)).2
    ⟨⟨Zone.fixed_standard.2 (by decide), by decide +kernel⟩,
      ⟨Zone.fixed_standard.2 (by decide), by decide +kernel⟩, .inl (by decide)⟩

/-- A certificate that is made in summer. -/
theorem not_certFile : (∀ text ∈ libplaIoWriteNodeStateS centralEurope (someNode 1247000000),
      text.length < 2000) ∧ ¬ (someNode 1247000000).RoundTrips centralEurope := by
  refine ⟨by decide +kernel, ?_⟩
  rintro ⟨text, hwrite, node', hback, rfl, -⟩
  have hnone : (libplaIoWriteNodeStateS centralEurope (someNode 1247000000)).bind
      (libplaIoReadNodeStateStreamS centralEurope) ≠ some (someNode 1247000000) := by
    decide +kernel
  rw [hwrite] at hnone
  exact hnone hback

end Blackadder.Pla
