import Blackadder.Api.Relay
import Blackadder.Network.Frames

/-!
# No packet is lost or used twice

`push` gives one packet to each link and one to the local proxy, and nothing is left. A packet that is
shorter than its header and the identifier is read beyond its end.
-/

namespace Blackadder

open Wire

namespace WireForwarder

variable {fresh : Nat → UInt8} {cs : Checksums} {b b' x : List UInt8} {k m j : Nat}
  {fe : ForwardingEntry (List UInt8)} {n : WireForwarder}

/-! ## Writes to a header -/

theorem blit_field (h : k + x.length ≤ b.length) : ∃ b', blit b k x = some b' ∧
    b'.length = b.length ∧ slice b' k x.length = some x ∧
    (∀ j m, j + m ≤ k → slice b' j m = slice b j m) ∧
    (∀ j, k + x.length ≤ j → b'.drop j = b.drop j) := by
  refine ⟨_, if_pos h, ?_, ?_, fun j m hj => ?_, fun j hj => ?_⟩
  · simp
    omega
  · have hk : k = (b.take k).length := by simp; omega
    have hdrop : (b.take k ++ x ++ b.drop (k + x.length)).drop k = x ++ b.drop (k + x.length) := by
      rw [List.append_assoc]
      exact drop_length rfl hk
    exact slice_drop hdrop rfl
  · have htake : ((b.take k ++ x ++ b.drop (k + x.length)).drop j).take m = (b.drop j).take m := by
      have hin : j + m ≤ (b.take k).length := by simp; omega
      rw [List.append_assoc, List.drop_append_of_le_length (by omega),
        List.take_append_of_le_length (by rw [List.length_drop]; omega), List.drop_take, List.take_take,
        Nat.min_eq_left (by omega)]
    rw [slice, slice, htake]
  · have hlen : (b.take k ++ x).length = k + x.length := by simp; omega
    obtain ⟨d, rfl⟩ := Nat.exists_eq_add_of_le hj
    rw [← List.drop_drop, drop_length rfl hlen.symm, List.drop_drop]

theorem slice_of_drop {b' : List UInt8} (h : b'.drop k = b.drop k) (hkj : k ≤ j) :
    slice b' j m = slice b j m := by
  obtain ⟨d, rfl⟩ := Nat.exists_eq_add_of_le hkj
  rw [slice, slice, ← List.drop_drop, ← List.drop_drop, h]

/-- A write to the headers of an IP packet that leaves the addresses. -/
structure Same (b b' : List UInt8) : Prop where
  length : b'.length = b.length
  src : slice b' 12 4 = slice b 12 4
  dst : slice b' 16 4 = slice b 16 4
  rest : b'.drop 28 = b.drop 28

theorem Same.trans {c : List UInt8} (h : Same b b') (h' : Same b' c) : Same b c :=
  ⟨h'.length.trans h.length, h'.src.trans h.src, h'.dst.trans h.dst, h'.rest.trans h.rest⟩

theorem blit_same (hlen : 28 ≤ b.length) (hroom : k + x.length ≤ 28)
    (hout : k + x.length ≤ 12 ∨ 20 ≤ k) : ∃ b', blit b k x = some b' ∧ Same b b' := by
  obtain ⟨b', hrun, hlength, -, hbefore, hafter⟩ := blit_field (b := b) (k := k) (x := x) (by omega)
  refine ⟨b', hrun, hlength, ?_, ?_, hafter 28 hroom⟩
  · rcases hout with hout | hout
    · exact slice_of_drop (hafter 12 hout) le_rfl
    · exact hbefore 12 4 (by omega)
  · rcases hout with hout | hout
    · exact slice_of_drop (hafter 12 hout) (by omega)
    · exact hbefore 16 4 (by omega)

theorem store_same (a : UInt8) (hlen : 28 ≤ b.length) (hout : k < 12) :
    ∃ b', store b k a = some b' ∧ Same b b' :=
  blit_same hlen (by simp; omega) (Or.inl (by simp; omega))

theorem writeUdpSum_same (cs : Checksums) (hlen : 28 ≤ b.length) :
    ∃ b', writeUdpSum cs b = some b' ∧ Same b b' := by
  obtain ⟨b₁, h₁, hsame₁⟩ := blit_same (x := [0, 0]) hlen (k := 20 + 6) (by simp) (by simp)
  have hlen₁ : b₁.length = b.length := hsame₁.length
  have hudp := slice_some (b := b₁) (k := 20) (m := (b.length - 20) % 2 ^ 16) (by
    have hle := Nat.mod_le (b.length - 20) (2 ^ 16)
    omega)
  have hip := slice_some (b := b₁) (k := 0) (m := 20) (by omega)
  obtain ⟨b₂, h₂, hsame₂⟩ := blit_same (b := b₁) (k := 20 + 6)
    (x := [(cs.in_cksum_pseudohdr (cs.in_cksum ((b₁.drop 20).take ((b.length - 20) % 2 ^ 16)))
        ((b₁.drop 0).take 20) ((b.length - 20) % 2 ^ 16)).1,
      (cs.in_cksum_pseudohdr (cs.in_cksum ((b₁.drop 20).take ((b.length - 20) % 2 ^ 16)))
        ((b₁.drop 0).take 20) ((b.length - 20) % 2 ^ 16)).2]) (by omega) (by simp) (by simp)
  refine ⟨b₂, ?_, hsame₁.trans hsame₂⟩
  simp only [writeUdpSum, h₁, hudp, hip, h₂, Option.bind_eq_bind, Option.bind_some]

/-- The addresses of the entry, and what follows the header. -/
structure Framed (useMac : Bool) (fe : ForwardingEntry (List UInt8)) (rest b : List UInt8) : Prop where
  dst : slice b (dstOffset useMac) (addrLen useMac) = some fe.dst
  src : slice b (srcOffset useMac) (addrLen useMac) = some fe.src
  rest : b.drop (headerLen useMac) = rest

theorem framed_same (h : Framed false fe x b) (hsame : Same b b') : Framed false fe x b' :=
  ⟨hsame.dst.trans h.dst, hsame.src.trans h.src, hsame.rest.trans h.rest⟩

theorem writeIp_framed (cs : Checksums) (hlen : 28 ≤ b.length) (hsrc : fe.src.length = 4)
    (hdst : fe.dst.length = 4) : ∃ b', writeIp cs fe b = some b' ∧ b'.length = b.length ∧
      Framed false fe (b.drop 28) b' := by
  obtain ⟨b₁, h₁, hlen₁, hsrc₁, -, hrest₁⟩ := blit_field (b := b) (k := 12) (x := fe.src) (by omega)
  obtain ⟨b₂, h₂, hlen₂, hdst₂, hsrc₂, hrest₂⟩ := blit_field (b := b₁) (k := 16) (x := fe.dst) (by omega)
  have hframed : Framed false fe (b.drop 28) b₂ := by
    refine ⟨?_, ?_, ?_⟩
    · rw [← hdst₂, hdst]
      rfl
    · rw [← hsrc₁, hsrc]
      exact hsrc₂ 12 4 (by omega)
    · exact (hrest₂ 28 (by omega)).trans (hrest₁ 28 (by omega))
  obtain ⟨b₃, h₃, hsame₃⟩ := store_same (b := b₂) (k := 1) 0 (by omega) (by omega)
  have hlen₃ := hsame₃.length
  obtain ⟨b₄, h₄, hsame₄⟩ := blit_same (b := b₃) (k := 6) (x := [0, 0]) (by omega) (by simp) (by simp)
  have hlen₄ := hsame₄.length
  obtain ⟨b₅, h₅, hsame₅⟩ := store_same (b := b₄) (k := 8) 250 (by omega) (by omega)
  have hlen₅ := hsame₅.length
  obtain ⟨b₆, h₆, hsame₆⟩ := blit_same (b := b₅) (k := 10) (x := [0, 0]) (by omega) (by simp) (by simp)
  have hlen₆ := hsame₆.length
  have hip := slice_some (b := b₆) (k := 0) (m := 20) (by omega)
  obtain ⟨b₇, h₇, hsame₇⟩ := blit_same (b := b₆) (k := 10)
    (x := [(cs.in_cksum ((b₆.drop 0).take 20)).1, (cs.in_cksum ((b₆.drop 0).take 20)).2])
    (by omega) (by simp) (by simp)
  have hsame := (((hsame₃.trans hsame₄).trans hsame₅).trans hsame₆).trans hsame₇
  refine ⟨b₇, ?_, by rw [hsame.length]; omega, framed_same hframed hsame⟩
  simp only [writeIp, h₁, h₂, h₃, h₄, h₅, h₆, hip, h₇, Option.bind_eq_bind, Option.bind_some]

theorem changeIp_framed (cs : Checksums) (hlen : 28 ≤ b.length) (hsrc : fe.src.length = 4)
    (hdst : fe.dst.length = 4) :
    ∃ b', changeIp cs fe b = some b' ∧ Framed false fe (b.drop 28) b' := by
  obtain ⟨b₁, h₁, hlen₁, hframed⟩ := writeIp_framed cs hlen hsrc hdst
  obtain ⟨b₂, h₂, hsame⟩ := writeUdpSum_same cs (b := b₁) (by omega)
  refine ⟨b₂, ?_, framed_same hframed hsame⟩
  simp only [changeIp, h₁, h₂, Option.bind_eq_bind, Option.bind_some]

theorem newIp_framed (cs : Checksums) (_id : Nat) (hlen : 28 ≤ b.length) (hsrc : fe.src.length = 4)
    (hdst : fe.dst.length = 4) :
    ∃ b', newIp cs _id fe b = some b' ∧ Framed false fe (b.drop 28) b' := by
  obtain ⟨b₁, h₁, hsame₁⟩ := store_same (b := b) (k := 0) 0x45 hlen (by omega)
  have hlen₁ := hsame₁.length
  obtain ⟨b₂, h₂, hsame₂⟩ := blit_same (b := b₁) (k := 2) (x := htons b₁.length) (by omega)
    (by simp [htons]) (by simp [htons])
  have hlen₂ := hsame₂.length
  obtain ⟨b₃, h₃, hsame₃⟩ := blit_same (b := b₂) (k := 4) (x := htons _id) (by omega)
    (by simp [htons]) (by simp [htons])
  have hlen₃ := hsame₃.length
  obtain ⟨b₄, h₄, hsame₄⟩ := store_same (b := b₃) (k := 9) 17 (by omega) (by omega)
  have hlen₄ := hsame₄.length
  obtain ⟨b₅, h₅, hlen₅, hframed⟩ := writeIp_framed cs (b := b₄) (by omega) hsrc hdst
  obtain ⟨b₆, h₆, hsame₆⟩ := blit_same (b := b₅) (k := 20) (x := htons 55555) (by omega)
    (by simp [htons]) (by simp [htons])
  have hlen₆ := hsame₆.length
  obtain ⟨b₇, h₇, hsame₇⟩ := blit_same (b := b₆) (k := 20 + 2) (x := htons 55555) (by omega)
    (by simp [htons]) (by simp [htons])
  have hlen₇ := hsame₇.length
  obtain ⟨b₈, h₈, hsame₈⟩ := blit_same (b := b₇) (k := 20 + 4) (x := htons (b₇.length - 20)) (by omega)
    (by simp [htons]) (by simp [htons])
  have hlen₈ := hsame₈.length
  obtain ⟨b₉, h₉, hsame₉⟩ := writeUdpSum_same cs (b := b₈) (by omega)
  have hrest : b₄.drop 28 = b.drop 28 :=
    (((hsame₁.trans hsame₂).trans hsame₃).trans hsame₄).rest
  have hlast := ((hsame₆.trans hsame₇).trans hsame₈).trans hsame₉
  refine ⟨b₉, ?_, hrest ▸ framed_same hframed hlast⟩
  simp only [newIp, h₁, h₂, h₃, h₄, h₅, h₆, h₇, h₈, h₉, Option.bind_eq_bind, Option.bind_some]

theorem writeMac_framed (hlen : 14 ≤ b.length) (hsrc : fe.src.length = 6) (hdst : fe.dst.length = 6) :
    ∃ b', writeMac fe b = some b' ∧ b'.length = b.length ∧ Framed true fe (b.drop 14) b' := by
  obtain ⟨b₁, h₁, hlen₁, hdst₁, -, hrest₁⟩ := blit_field (b := b) (k := 0) (x := fe.dst) (by omega)
  obtain ⟨b₂, h₂, hlen₂, hsrc₂, hdst₂, hrest₂⟩ := blit_field (b := b₁) (k := 6) (x := fe.src) (by omega)
  refine ⟨b₂, ?_, by omega, ?_, ?_, ?_⟩
  · simp only [writeMac, h₁, h₂, Option.bind_eq_bind, Option.bind_some]
  · rw [← hdst₁, hdst]
    exact hdst₂ 0 6 (by omega)
  · rw [← hsrc₂, hsrc]
    rfl
  · exact (hrest₂ 14 (by omega)).trans (hrest₁ 14 (by omega))

theorem newMac_framed (hlen : 14 ≤ b.length) (hsrc : fe.src.length = 6) (hdst : fe.dst.length = 6) :
    ∃ b', newMac fe b = some b' ∧ Framed true fe (b.drop 14) b' := by
  obtain ⟨b₁, h₁, hlen₁, hframed⟩ := writeMac_framed hlen hsrc hdst
  obtain ⟨b₂, h₂, -, -, hbefore, hafter⟩ := blit_field (b := b₁) (k := 6 + 6) (x := htons 0x080a)
    (by simp [htons]; omega)
  refine ⟨b₂, ?_, (hbefore 0 6 (by omega)).trans hframed.dst,
    (hbefore 6 6 (by omega)).trans hframed.src, (hafter 14 (by simp [htons])).trans hframed.rest⟩
  simp only [newMac, h₁, h₂, Option.bind_eq_bind, Option.bind_some]

/-! ## Turns -/

variable {x x' : Packets} {h q counter _id : Nat} {data : List UInt8} {l : List (Nat × List UInt8)}
  {done rest : List (ForwardingEntry (List UInt8))} {keep : Bool} {total : Nat}
  {R : ForwardingEntry (List UInt8) → Nat × List UInt8 → Prop}

theorem sendNew_spec (fresh : Nat → UInt8) (cs : Checksums) (_id : Nat) (hfe : fe ∈ n.fwTable)
    (hx : x.Owns ((h, data) :: l)) : ∃ x' b, n.sendNew fresh cs _id fe x h = some x' ∧ x'.Owns l ∧
      x'.out = x.out ++ [(fe.port, b)] ∧ Framed n.gc.useMac fe data b := by
  have hsrc := n.src_length fe hfe
  have hdst := n.dst_length fe hfe
  obtain ⟨q, x₁, h₁, hx₁, hout₁⟩ := hx.renew (f := fun p =>
    some (LocalProxy.room fresh (headerLen n.gc.useMac) p)) rfl
  have hroom : (LocalProxy.room fresh (headerLen n.gc.useMac) data).drop (headerLen n.gc.useMac) = data :=
    drop_length rfl (by simp)
  have hlen : headerLen n.gc.useMac ≤ (LocalProxy.room fresh (headerLen n.gc.useMac) data).length := by
    simp [LocalProxy.room]
  obtain ⟨b, hb, hframed⟩ : ∃ b, (if n.gc.useMac then newMac fe else newIp cs _id fe)
      (LocalProxy.room fresh (headerLen n.gc.useMac) data) = some b ∧ Framed n.gc.useMac fe data b := by
    cases hmac : n.gc.useMac with
    | true =>
      rw [hmac] at hsrc hdst hroom hlen
      obtain ⟨b, hb, hframed⟩ := newMac_framed hlen hsrc hdst
      exact ⟨b, hb, hroom ▸ hframed⟩
    | false =>
      rw [hmac] at hsrc hdst hroom hlen
      obtain ⟨b, hb, hframed⟩ := newIp_framed cs _id hlen hsrc hdst
      exact ⟨b, hb, hroom ▸ hframed⟩
  obtain ⟨x₂, h₂, hx₂, hout₂⟩ := hx₁.modify hb
  obtain ⟨x₃, h₃, hx₃, hout₃⟩ := hx₂.send fun p => (fe.port, p)
  refine ⟨x₃, b, ?_, hx₃, by rw [hout₃, hout₂, hout₁], hframed⟩
  simp only [sendNew, h₁, h₂, h₃, Option.bind_eq_bind, Option.bind_some]

theorem sendOn_spec (cs : Checksums) (hfe : fe ∈ n.fwTable) (hlen : headerLen n.gc.useMac ≤ data.length)
    (hx : x.Owns ((h, data) :: l)) : ∃ x' b, n.sendOn cs fe x h = some x' ∧ x'.Owns l ∧
      x'.out = x.out ++ [(fe.port, b)] ∧
      Framed n.gc.useMac fe (data.drop (headerLen n.gc.useMac)) b := by
  have hsrc := n.src_length fe hfe
  have hdst := n.dst_length fe hfe
  obtain ⟨b, hb, hframed⟩ : ∃ b, (if n.gc.useMac then writeMac fe else changeIp cs fe) data = some b ∧
      Framed n.gc.useMac fe (data.drop (headerLen n.gc.useMac)) b := by
    cases hmac : n.gc.useMac with
    | true =>
      rw [hmac] at hsrc hdst hlen
      obtain ⟨b, hb, -, hframed⟩ := writeMac_framed hlen hsrc hdst
      exact ⟨b, hb, hframed⟩
    | false =>
      rw [hmac] at hsrc hdst hlen
      exact changeIp_framed cs hlen hsrc hdst
  obtain ⟨x₁, h₁, hx₁, hout₁⟩ := hx.modify hb
  obtain ⟨x₂, h₂, hx₂, hout₂⟩ := hx₁.send fun p => (fe.port, p)
  refine ⟨x₂, b, ?_, hx₂, by rw [hout₂, hout₁], hframed⟩
  simp only [sendOn, h₁, h₂, Option.bind_eq_bind, Option.bind_some]

/-- The packet before a turn of a loop: it is there as long as it is needed. -/
structure Ready (p : Nat) (data : List UInt8) (keep : Bool) (total : Nat)
    (R : ForwardingEntry (List UInt8) → Nat × List UInt8 → Prop)
    (done : List (ForwardingEntry (List UInt8))) (x : Packets) (counter : Nat) : Prop where
  counter : counter = done.length + 1
  owns : x.Owns (if keep = true ∨ done.length < total then [(p, data)] else [])
  out : List.Forall₂ R done x.out

/-- The last turn takes the packet itself, when nobody needs it afterwards. -/
theorem Ready.payload {p : Nat} (last : Bool) (hx : Ready p data keep total R done x counter)
    (hmore : done.length < total) (hlast : last = true ↔ counter = total ∧ keep = false) :
    ∃ q x', payloadOf x p last = some (q, x') ∧ x'.out = x.out ∧
      x'.Owns ((q, data) :: if keep = true ∨ done.length + 1 < total then [(p, data)] else []) := by
  have howns := hx.owns
  rw [if_pos (Or.inr hmore)] at howns
  rw [hx.counter] at hlast
  cases last with
  | true =>
    obtain ⟨hcounter, hkeep⟩ := hlast.mp rfl
    obtain ⟨q, x', hrun, hx', hout⟩ := howns.renew (f := some) rfl
    refine ⟨q, x', hrun, hout, ?_⟩
    rw [if_neg]
    · exact hx'
    · rintro (h | h)
      · rw [hkeep] at h
        cases h
      · omega
  | false =>
    obtain ⟨q, x₁, h₁, hx₁, hout₁⟩ := howns.clone
    obtain ⟨q', x₂, h₂, hx₂, hout₂⟩ := hx₁.renew (f := some) rfl
    refine ⟨q', x₂, ?_, hout₂.trans hout₁, ?_⟩
    · simp only [payloadOf, Bool.false_eq_true, if_false, h₁, h₂, Option.bind_eq_bind, Option.bind_some]
    · rw [if_pos]
      · exact hx₂
      · by_contra hno
        rw [not_or, Bool.not_eq_true] at hno
        exact absurd (hlast.mpr ⟨by omega, hno.1⟩) (by simp)

theorem Ready.next {p : Nat} {o : Nat × List UInt8} (hx : Ready p data keep total R done x counter)
    (hx' : x'.Owns (if keep = true ∨ done.length + 1 < total then [(p, data)] else []))
    (hout : x'.out = x.out ++ [o]) (ho : R fe o) :
    Ready p data keep total R (done ++ [fe]) x' (counter + 1) where
  counter := by rw [hx.counter, List.length_append, List.length_singleton]
  owns := by rwa [List.length_append, List.length_singleton]
  out := by
    rw [hout]
    exact List.rel_append hx.out (.cons ho .nil)

/-! ## Both loops -/

variable {FID : Bitvector} {out_links : List (ForwardingEntry (List UInt8))}

theorem ready_start (howns : x.Owns (if keep = true ∨ 0 < total then [(h, data)] else []))
    (hout : x.out = []) : Ready h data keep total R [] x 1 where
  counter := rfl
  owns := howns
  out := by
    rw [hout]
    exact .nil

theorem newLoop_spec (fresh : Nat → UInt8) (cs : Checksums) (_id : Nat)
    (hin : ∀ fe ∈ out_links, fe ∈ n.fwTable)
    (howns : x.Owns (if out_links.length = 0 then [] else [(h, data)])) (hout : x.out = []) :
    ∃ x' counter' id', out_links.foldlM (newTurn fresh cs n h out_links) (x, 1, _id) =
        some (x', counter', id') ∧ x'.Owns [] ∧
      List.Forall₂ (fun fe o => o.1 = fe.port ∧ Framed n.gc.useMac fe data o.2) out_links x'.out := by
  have hstart : Ready h data false out_links.length
      (fun fe o => o.1 = fe.port ∧ Framed n.gc.useMac fe data o.2) [] x 1 := by
    refine ready_start ?_ hout
    by_cases hnil : out_links.length = 0
    · rw [if_pos hnil] at howns
      rwa [if_neg (by simpa using hnil)]
    · rw [if_neg hnil] at howns
      rwa [if_pos (Or.inr (Nat.pos_of_ne_zero hnil))]
  obtain ⟨⟨x', counter', id'⟩, hrun, hready⟩ := foldlM_all (l := out_links)
    (f := newTurn fresh cs n h out_links)
    (I := fun done s => Ready h data false out_links.length
      (fun fe o => o.1 = fe.port ∧ Framed n.gc.useMac fe data o.2) done s.1 s.2.1)
    (s := (x, 1, _id)) hstart (by
      rintro done fe rest ⟨x, counter, _id⟩ hl hx
      have hmore : done.length < out_links.length := by simp [hl]
      obtain ⟨q, x₁, h₁, hout₁, hx₁⟩ := hx.payload (decide (counter = out_links.length)) hmore
        (by simp)
      obtain ⟨x₂, b, h₂, hx₂, hout₂, hframed⟩ := sendNew_spec fresh cs _id (hin fe (by simp [hl])) hx₁
      exact ⟨(x₂, counter + 1, if n.gc.useMac then _id else _id + 1),
        by simp only [newTurn, h₁, h₂, Option.bind_eq_bind, Option.bind_some]; rfl,
        hx.next hx₂ (hout₂.trans (by rw [hout₁])) ⟨rfl, hframed⟩⟩)
  refine ⟨x', counter', id', hrun, ?_, hready.out⟩
  have hleft := hready.owns
  rwa [if_neg (by simp)] at hleft

theorem onLoop_spec (cs : Checksums) (keep : Bool) (hin : ∀ fe ∈ out_links, fe ∈ n.fwTable)
    (hlen : headerLen n.gc.useMac ≤ data.length) (hx : x.Owns [(h, data)]) (hout : x.out = []) :
    ∃ x' counter', out_links.foldlM (onTurn cs n h out_links keep) (x, 1) = some (x', counter') ∧
      x'.Owns (if keep = true ∨ out_links.length = 0 then [(h, data)] else []) ∧
      List.Forall₂ (fun fe o => o.1 = fe.port ∧
        Framed n.gc.useMac fe (data.drop (headerLen n.gc.useMac)) o.2) out_links x'.out := by
  by_cases hnil : out_links = []
  · subst hnil
    refine ⟨x, 1, rfl, ?_, ?_⟩
    · rwa [if_pos (Or.inr List.length_nil)]
    · rw [hout]
      exact .nil
  have hpos := List.length_pos_of_ne_nil hnil
  have hstart : Ready h data keep out_links.length (fun fe o => o.1 = fe.port ∧
      Framed n.gc.useMac fe (data.drop (headerLen n.gc.useMac)) o.2) [] x 1 :=
    ready_start (by rwa [if_pos (Or.inr hpos)]) hout
  obtain ⟨⟨x', counter'⟩, hrun, hready⟩ := foldlM_all (l := out_links) (f := onTurn cs n h out_links keep)
    (I := fun done s => Ready h data keep out_links.length (fun fe o => o.1 = fe.port ∧
      Framed n.gc.useMac fe (data.drop (headerLen n.gc.useMac)) o.2) done s.1 s.2)
    (s := (x, 1)) hstart (by
      rintro done fe rest ⟨x, counter⟩ hl hx
      have hmore : done.length < out_links.length := by simp [hl]
      obtain ⟨q, x₁, h₁, hout₁, hx₁⟩ := hx.payload
        (decide (counter = out_links.length ∧ keep = false)) hmore (by simp)
      obtain ⟨x₂, b, h₂, hx₂, hout₂, hframed⟩ := sendOn_spec cs (hin fe (by simp [hl])) hlen hx₁
      exact ⟨(x₂, counter + 1), by simp only [onTurn, h₁, h₂, Option.bind_eq_bind, Option.bind_some]; rfl,
        hx.next hx₂ (hout₂.trans (by rw [hout₁])) ⟨rfl, hframed⟩⟩)
  refine ⟨x', counter', hrun, ?_, hready.out⟩
  have hleft := hready.owns
  have hiff : (keep = true ∨ out_links.length < out_links.length) ↔
      (keep = true ∨ out_links.length = 0) := or_congr_right (by omega)
  simpa only [hiff] using hleft

/-! ## One packet -/

theorem represents_of_framed {useMac : Bool} {payload : List UInt8}
    (hall : List.Forall₂ (fun fe o => o.1 = fe.port ∧ Framed useMac fe (FID.data ++ payload) o.2)
      out_links l) :
    List.Forall₂ (Represents useMac) (out_links.map fun fe => Forwarder.send fe FID payload) l := by
  rw [List.forall₂_map_left_iff]
  exact hall.imp fun fe o ho => ⟨ho.1, ho.2.dst, ho.2.src, ho.2.rest⟩

theorem pushLocal_spec (fresh : Nat → UInt8) (cs : Checksums) (n : WireForwarder) (_id : Nat)
    {packet : Packet} (hb : b = packet.FID.data ++ packet.payload) :
    ∃ x' id', n.pushLocal fresh cs _id (Pool.single b) 0 = some (x', id') ∧ x'.Owns [] ∧
      List.Forall₂ (Represents n.gc.useMac) (n.toForwarder.pushLocal packet) x'.out := by
  have howns := Pool.owns_single (O := Nat × List UInt8) b
  have hread := howns.read
  have hFID := readFID_eq (p := b) (k := 0) hb
  set out_links := n.fwTable.filter fun fe => packet.FID.Includes fe.LID with hlinks
  have hin : ∀ fe ∈ out_links, fe ∈ n.fwTable := fun fe hfe => (List.mem_filter.mp hfe).1
  suffices ∃ x' id', n.pushLocal fresh cs _id (Pool.single b) 0 = some (x', id') ∧ x'.Owns [] ∧
      List.Forall₂ (fun fe o => o.1 = fe.port ∧ Framed n.gc.useMac fe b o.2) out_links x'.out by
    obtain ⟨x', id', hrun, hleft, hall⟩ := this
    rw [hb] at hall
    exact ⟨x', id', hrun, hleft, represents_of_framed hall⟩
  by_cases hnil : out_links.length = 0
  · obtain ⟨x₁, h₁, hx₁, hout₁⟩ := howns.kill
    obtain ⟨x', counter', id', hrun, hleft, hall⟩ := newLoop_spec (h := 0) fresh cs _id hin
      (by rwa [if_pos hnil]) hout₁
    refine ⟨x', id', ?_, hleft, hall⟩
    rw [pushLocal]
    simp only [hread, hFID, ← hlinks, h₁, hrun, if_pos hnil, Option.bind_eq_bind, Option.bind_some,
      Option.pure_def]
  · obtain ⟨x', counter', id', hrun, hleft, hall⟩ := newLoop_spec (h := 0) fresh cs _id hin
      (by rwa [if_neg hnil]) rfl
    refine ⟨x', id', ?_, hleft, hall⟩
    rw [pushLocal]
    simp only [hread, hFID, ← hlinks, hrun, if_neg hnil, Option.bind_eq_bind, Option.bind_some,
      Option.pure_def]

/-- After the loop the packet goes up, or it is killed when nobody took it. -/
theorem finish_spec {pushLocally : Bool} (hlen : headerLen n.gc.useMac + fidLen ≤ b.length)
    (hx : x.Owns (if pushLocally = true ∨ out_links.length = 0 then [(0, b)] else [])) :
    ∃ x', n.finish out_links pushLocally x 0 = some x' ∧ x'.Owns [] ∧
      x'.out = x.out ++ if pushLocally then [(0, b.drop (headerLen n.gc.useMac + fidLen))] else [] := by
  cases pushLocally with
  | true =>
    rw [if_pos (Or.inl rfl)] at hx
    obtain ⟨x₁, h₁, hx₁, hout₁⟩ := hx.modify (f := pull (headerLen n.gc.useMac + fidLen)) (if_pos hlen)
    obtain ⟨x₂, h₂, hx₂, hout₂⟩ := hx₁.send fun p => (0, p)
    refine ⟨x₂, ?_, hx₂, by rw [hout₂, hout₁]; rfl⟩
    simp [finish, h₁, h₂]
  | false =>
    by_cases hnil : out_links.length = 0
    · rw [if_pos (Or.inr hnil)] at hx
      obtain ⟨x₁, h₁, hx₁, hout₁⟩ := hx.kill
      refine ⟨x₁, ?_, hx₁, by simp [hout₁]⟩
      simpa [finish, hnil] using h₁
    · rw [if_neg (by simpa using hnil)] at hx
      exact ⟨x, by simp [finish, hnil], hx, by simp⟩

theorem complement_ne_zero : ~~~FID ≠ 0 ↔ ¬ FID = BitVec.allOnes fidBits := by
  refine not_congr ⟨fun h => ?_, fun h => ?_⟩
  · rw [← BitVec.not_not (b := FID), h]
    simp
  · subst h
    simp

theorem pushNetwork_spec (cs : Checksums) (n : WireForwarder) {frame : Frame (List UInt8)}
    (hb : Encodes n.gc.useMac frame b) :
    ∃ x', n.pushNetwork cs (Pool.single b) 0 = some x' ∧ x'.Owns [] ∧
      List.Forall₂ (Represents n.gc.useMac) (n.toForwarder.pushNetwork frame) x'.out := by
  obtain ⟨hdst, hsrc, hrest⟩ := hb
  have hread := (Pool.owns_single (O := Nat × List UInt8) b).read
  have hFID := readFID_eq hrest
  have hlen : headerLen n.gc.useMac + fidLen ≤ b.length := by
    have hlength := congrArg List.length hrest
    have hfid : fidLen = 32 := rfl
    rw [List.length_append, List.length_drop, Bitvector.length_data] at hlength
    omega
  set out_links := if frame.FID = BitVec.allOnes fidBits then []
    else n.fwTable.filter fun fe => frame.FID.Includes fe.LID ∧ ¬ Forwarder.Reverse fe frame with hlinks
  have hin : ∀ fe ∈ out_links, fe ∈ n.fwTable := by
    intro fe hfe
    rw [hlinks] at hfe
    split at hfe
    · cases hfe
    · exact (List.mem_filter.mp hfe).1
  obtain ⟨x₁, counter, h₁, hx₁, hall⟩ := onLoop_spec (h := 0) (n := n) cs
    (decide (frame.FID.Includes n.gc.iLID)) hin (by omega) (Pool.owns_single b) rfl
  obtain ⟨x₂, h₂, hx₂, hout₂⟩ := finish_spec hlen hx₁
  refine ⟨x₂, ?_, hx₂, ?_⟩
  · rw [pushNetwork]
    simp only [hread, hFID, hsrc, hdst, Option.bind_eq_bind, Option.bind_some, complement_ne_zero]
    by_cases hones : frame.FID = BitVec.allOnes fidBits
    · rw [if_pos hones] at hlinks
      rw [hlinks] at h₁ h₂
      obtain ⟨rfl, -⟩ := Prod.mk.inj (Option.some.inj h₁)
      simpa only [hones, not_true, if_false, Option.bind_some] using h₂
    · rw [if_neg hones] at hlinks
      have hsame : (n.fwTable.filter fun fe =>
          frame.FID.Includes fe.LID ∧ ¬ (frame.src = fe.dst ∧ frame.dst = fe.src)) = out_links := hlinks.symm
      simp only [hones, not_false_eq_true, if_true, hsame, h₁, Option.bind_some, h₂]
  · rw [hout₂, Forwarder.pushNetwork]
    refine List.rel_append (represents_of_framed (hrest ▸ hall)) ?_
    by_cases hlocal : frame.FID.Includes n.gc.iLID
    · have hpayload : b.drop (headerLen n.gc.useMac + fidLen) = frame.payload :=
        drop_next hrest (by simp)
      rw [if_pos hlocal, if_pos (by simpa using hlocal), hpayload]
      exact .cons rfl .nil
    · rw [if_neg hlocal, if_neg (by simpa using hlocal)]
      exact .nil

/-- Bytes behind a header have one. -/
theorem reads_of_rest {useMac : Bool} {in_port : Nat} {rest : List UInt8} (hin : 1 ≤ in_port)
    (h : b.drop (headerLen useMac) = FID.data ++ rest) :
    ∃ dst src, Received.Reads useMac in_port b (.fromNetwork ⟨dst, src, FID, rest⟩) := by
  have hlen : headerLen useMac ≤ b.length := by
    have hlength := congrArg List.length h
    rw [List.length_append, List.length_drop, Bitvector.length_data] at hlength
    omega
  have hdst : dstOffset useMac + addrLen useMac ≤ b.length := by
    cases useMac <;> simp [dstOffset, addrLen, headerLen] at hlen ⊢ <;> omega
  have hsrc : srcOffset useMac + addrLen useMac ≤ b.length := by
    cases useMac <;> simp [srcOffset, addrLen, headerLen] at hlen ⊢ <;> omega
  exact ⟨_, _, hin, slice_some hdst, slice_some hsrc, h⟩

/-- Every packet that is long enough for its header and the identifier can be read. -/
theorem exists_reads (useMac : Bool) (in_port : Nat)
    (hlen : (if in_port = 0 then 0 else headerLen useMac) + fidLen ≤ b.length) :
    ∃ r : Received, r.Reads useMac in_port b := by
  have hsplit (k : Nat) (hk : k + fidLen ≤ b.length) : ∃ FID : Bitvector, ∃ payload,
      b.drop k = FID.data ++ payload := by
    refine ⟨Bitvector.ofData ((b.drop k).take fidLen), (b.drop k).drop fidLen, ?_⟩
    have htake : ((b.drop k).take fidLen).length = fidLen := by
      rw [List.length_take, List.length_drop]
      omega
    rw [Bitvector.data_ofData htake, List.take_append_drop]
  by_cases hport : in_port = 0
  · rw [if_pos hport] at hlen
    obtain ⟨FID, payload, hb⟩ := hsplit 0 hlen
    exact ⟨.fromProxy ⟨FID, payload⟩, hport, hb⟩
  · rw [if_neg hport] at hlen
    obtain ⟨FID, payload, hb⟩ := hsplit _ hlen
    obtain ⟨dst, src, hreads⟩ := reads_of_rest (Nat.pos_of_ne_zero hport) hb
    exact ⟨_, hreads⟩

theorem push_spec (fresh : Nat → UInt8) (cs : Checksums) (n : WireForwarder) (_id in_port : Nat)
    {r : Received} (hr : r.Reads n.gc.useMac in_port b) :
    ∃ x' id', n.push fresh cs _id in_port (Pool.single b) 0 = some (x', id') ∧ x'.Owns [] ∧
      List.Forall₂ (Represents n.gc.useMac) (r.outputs n.toForwarder) x'.out := by
  cases r with
  | fromProxy packet =>
    obtain ⟨hport, hb⟩ := hr
    rw [push, if_pos hport]
    exact pushLocal_spec fresh cs n _id hb
  | fromNetwork frame =>
    obtain ⟨hport, hb⟩ := hr
    obtain ⟨x', hrun, hleft, hall⟩ := pushNetwork_spec cs n hb
    refine ⟨x', _id, ?_, hleft, hall⟩
    rw [push, if_neg (by omega), hrun]
    rfl

/-- Each packet goes to the entries that it is for and to nobody else, and none is left. -/
theorem push_conserves (fresh : Nat → UInt8) (cs : Checksums) (n : WireForwarder) (_id in_port : Nat)
    (b : List UInt8) (hlen : (if in_port = 0 then 0 else headerLen n.gc.useMac) + fidLen ≤ b.length) :
    ∃ r x' id', Received.Reads n.gc.useMac in_port b r ∧
      n.push fresh cs _id in_port (Pool.single b) 0 = some (x', id') ∧ x'.Owns [] ∧
      List.Forall₂ (Represents n.gc.useMac)
        ((n.fwTable.filter fun fe => r.Due fe).map (Forwarder.send · r.FID r.payload) ++
          if r.Local n.gc then [.localProxy r.payload] else []) x'.out := by
  obtain ⟨r, hr⟩ := exists_reads n.gc.useMac in_port hlen
  obtain ⟨x', id', hrun, hleft, hall⟩ := push_spec fresh cs n _id in_port hr
  exact ⟨r, x', id', hr, hrun, hleft, r.outputs_eq n.toForwarder ▸ hall⟩

/-- A packet that is too short for its header and the identifier is read beyond its end. -/
theorem push_short (fresh : Nat → UInt8) (cs : Checksums) (n : WireForwarder) (_id in_port : Nat)
    (b : List UInt8) (hlen : b.length < (if in_port = 0 then 0 else headerLen n.gc.useMac) + fidLen) :
    n.push fresh cs _id in_port (Pool.single b) 0 = none := by
  have hread := (Pool.owns_single (O := Nat × List UInt8) b).read
  have hFID : readFID b (if in_port = 0 then 0 else headerLen n.gc.useMac) = none := by
    rw [readFID, slice_none (by decide) hlen, Option.map_none]
  by_cases hport : in_port = 0
  · rw [if_pos hport] at hFID
    rw [push, if_pos hport, pushLocal]
    simp only [hread, hFID, Option.bind_eq_bind, Option.bind_some, Option.bind_none]
  · rw [if_neg hport] at hFID
    rw [push, if_neg hport, pushNetwork]
    simp only [hread, hFID, Option.bind_eq_bind, Option.bind_some, Option.bind_none, Option.map_none]

/-- `push` conserves the packets that hold a header, if they have one, and an identifier. -/
theorem push_conserves_iff (fresh : Nat → UInt8) (cs : Checksums) (n : WireForwarder) (_id in_port : Nat)
    (b : List UInt8) :
    (∃ r x' id', Received.Reads n.gc.useMac in_port b r ∧
      n.push fresh cs _id in_port (Pool.single b) 0 = some (x', id') ∧ x'.Owns [] ∧
      List.Forall₂ (Represents n.gc.useMac)
        ((n.fwTable.filter fun fe => r.Due fe).map (Forwarder.send · r.FID r.payload) ++
          if r.Local n.gc then [.localProxy r.payload] else []) x'.out) ↔
      (if in_port = 0 then 0 else headerLen n.gc.useMac) + fidLen ≤ b.length := by
  constructor
  · rintro ⟨r, x', id', -, hrun, -, -⟩
    by_contra hshort
    rw [push_short fresh cs n _id in_port b (Nat.lt_of_not_le hshort)] at hrun
    cases hrun
  · exact push_conserves fresh cs n _id in_port b

/-- A node with a link to each of two neighbours. -/
def twoLinks : WireForwarder where
  gc := ⟨true, List.replicate 8 0, 1, 2, none⟩
  fwTable := [⟨[0, 0, 0, 0, 0, 1], [0, 0, 0, 0, 0, 2], 1, 4⟩, ⟨[0, 0, 0, 0, 0, 1], [0, 0, 0, 0, 0, 3], 2, 8⟩]
  src_length := by decide
  dst_length := by decide

/-- A frame of 24 bytes ends in its identifier. -/
theorem not_push_conserves :
    let b : List UInt8 := [0, 0, 0, 0, 0, 1, 0, 0, 0, 0, 0, 2, 8, 10] ++ List.replicate 10 0xff
    ¬ ∃ r x' id', Received.Reads true 1 b r ∧
      twoLinks.push (fun _ => 0) ⟨fun _ => (0, 0), fun _ _ _ => (0, 0)⟩ 0 1 (Pool.single b) 0 =
        some (x', id') ∧ x'.Owns [] ∧ List.Forall₂ (Represents true)
        ((twoLinks.fwTable.filter fun fe => r.Due fe).map (Forwarder.send · r.FID r.payload) ++
          if r.Local twoLinks.gc then [.localProxy r.payload] else []) x'.out := by
  rintro b ⟨r, x', id', -, hrun, -, -⟩
  rw [push_short (fun _ => 0) _ twoLinks 0 1 b (by decide)] at hrun
  cases hrun

end WireForwarder

end Blackadder
