import ChipEight.Checked.Decoding
import ChipEight.Proofs.NoHazard

/-!
# The defects of an image

Any bytes at all can be given for an image, and several things can be wrong with them at once.

* `Checked.Cursor.Reads` : what a cursor reads from an offset on, as the bytes that it reads lie.
* `Checked.decode_eq` : the widths of the parts add up to the size of an image, so that no byte is looked for beyond it.
* `Image.Fails`, `Image.Formatted` : the checks, each by itself, and the format that they check.
* `Image.decode_eq_error_iff`, `Image.decodes_iff` : the decoder stops at the first check that fails.
* `Image.Defect.message_injective` : no two defects are told in the same words.
* `Image.first_defect` : an image is refused for its first defect.
-/

namespace ChipEight

namespace Checked.Cursor

variable {α β : Type} {bytes : List UInt8} {k n : Nat} {x : Cursor α} {a : α}

/-- From offset `k` on, `n` bytes are read as `a`. -/
def Reads (bytes : List UInt8) (k n : Nat) (x : Cursor α) (a : α) : Prop :=
  x (bytes.drop k) = .ok (a, bytes.drop (k + n))

theorem Reads.bind (h : Reads bytes k n x a) (f : α → Cursor β) :
    (x >>= f) (bytes.drop k) = f a (bytes.drop (k + n)) := by
  show (x (bytes.drop k) >>= fun p => f p.1 p.2) = _
  rw [h]
  rfl

theorem reads_take (h : k + n ≤ bytes.length) : Reads bytes k n (take n) ((bytes.drop k).take n) := by
  have hlen : n ≤ (bytes.drop k).length := by
    rw [List.length_drop]
    omega
  unfold Reads take
  rw [if_pos hlen, List.drop_drop]

theorem nth_take (h : k + n ≤ bytes.length) {j : Nat} (hj : j < n) :
    nth ((bytes.drop k).take n) j = .ok (Image.byte bytes (k + j) (by omega)) := by
  unfold nth
  rw [List.getElem?_take_of_lt hj, List.getElem?_drop, List.getElem?_eq_getElem]
  rfl

theorem lift_bind {y : Risky α} (h : y = .ok a) (f : α → Cursor β) (rest : List UInt8) :
    ((liftM y : Cursor α) >>= f) rest = f a rest := by
  rw [h]
  rfl

theorem lift_eq {y : Risky α} (h : y = .ok a) (rest : List UInt8) : (liftM y : Cursor α) rest = .ok (a, rest) := by
  rw [h]
  rfl

theorem reads_byte (h : k < bytes.length) : Reads bytes k 1 byte (Image.byte bytes k h) := by
  unfold Reads byte
  rw [(reads_take h).bind]
  exact lift_eq (nth_take h Nat.one_pos) _

theorem reads_word (h : k + 1 < bytes.length) : Reads bytes k 2 word (Image.word bytes k h) := by
  unfold Reads word
  rw [(reads_take h).bind, lift_bind (nth_take h (by decide)), lift_bind (nth_take h (by decide))]
  rfl

theorem toList_put {m : Bytes n} (h : bytes.length = n) : (m.put 0 bytes).toList = bytes := by
  subst h
  have hput := slice_put m (Nat.le_refl bytes.length)
  rwa [slice_zero, List.take_of_length_le (by simp)] at hput

theorem reads_block (h : k + n ≤ bytes.length) : Reads bytes k n (block n) (Image.block bytes k n h) := by
  have hlen : ((bytes.drop k).take n).length = n := by simp; omega
  have hcopy : copy (Vector.replicate n 0) 0 n ((bytes.drop k).take n) =
      .ok (Bytes.put (.replicate n 0) 0 ((bytes.drop k).take n)) := by
    have hall := copy_eq (Vector.replicate n 0) (Nat.le_of_eq ((Nat.zero_add _).trans hlen))
    rwa [hlen, Nat.zero_add] at hall
  unfold Reads block
  rw [(reads_take h).bind, lift_eq hcopy, (Image.block_eq_iff h _).mpr (toList_put hlen).symm]

theorem reads_words (h : ∀ j : Fin n, k + 2 * j.val + 1 < bytes.length) :
    Reads bytes k (2 * n) (words n) (Vector.ofFn fun j : Fin n => Image.word bytes (k + 2 * j.val) (h j)) := by
  induction n with
  | zero => rfl
  | succ n ih =>
    have hlast : Reads bytes (k + 2 * n) 2 word (Image.word bytes (k + 2 * n) (h (Fin.last n))) :=
      reads_word (h (Fin.last n))
    unfold Reads words
    rw [(ih fun j => h j.castSucc).bind, hlast.bind, Vector.ofFn_succ]
    rfl

/-- The parts of an image lie one behind the other, and the last one ends where the bytes end. -/
theorem machine_eq (h : bytes.length = 6204) : ∃ rest, machine bytes = .ok (Image.decode bytes, rest) := by
  obtain ⟨m, hm⟩ : ∃ m, Image.layout bytes h = m := ⟨_, rfl⟩
  have hsignature : Reads bytes 0 4 (take 4) (bytes.take 4) := reads_take (by omega)
  have hversion : Reads bytes 4 1 byte _ := reads_byte (by omega)
  have hmemory : Reads bytes 5 4096 (block 4096) m.memory := hm ▸ reads_block (by omega)
  have hpc : Reads bytes 4101 2 word m.pc := hm ▸ reads_word (by omega)
  have hv : Reads bytes 4103 16 (block 16) m.v := hm ▸ reads_block (by omega)
  have hi : Reads bytes 4119 2 word m.i := hm ▸ reads_word (by omega)
  have hstack : Reads bytes 4121 32 (words 16) m.stack := hm ▸ reads_words (fun j => by omega)
  have hsp : Reads bytes 4153 1 byte m.sp := hm ▸ reads_byte (by omega)
  have hdelay : Reads bytes 4154 1 byte m.delay := hm ▸ reads_byte (by omega)
  have hsound : Reads bytes 4155 1 byte m.sound := hm ▸ reads_byte (by omega)
  have hscreen : Reads bytes 4156 Screen.size (block Screen.size) m.screen :=
    hm ▸ reads_block (show 4156 + 2048 ≤ bytes.length by omega)
  have hstart : machine bytes = machine (bytes.drop 0) := rfl
  rw [hstart]
  unfold machine Image.decode
  rw [dif_pos h, hm, hsignature.bind]
  dsimp only
  by_cases hletters : bytes.take 4 ≠ Image.signature
  · rw [if_pos hletters, if_pos hletters]
    exact ⟨_, rfl⟩
  rw [if_neg hletters, if_neg hletters, hversion.bind]
  by_cases hfound : Image.byte bytes 4 (by omega) ≠ Image.version
  · rw [if_pos hfound, if_pos hfound]
    exact ⟨_, rfl⟩
  rw [if_neg hfound, if_neg hfound, hmemory.bind, hpc.bind, hv.bind, hi.bind, hstack.bind, hsp.bind]
  by_cases hover : 16 < m.sp
  · rw [if_pos hover, if_pos hover]
    exact ⟨_, rfl⟩
  rw [if_neg hover, if_neg hover, hdelay.bind, hsound.bind, hscreen.bind]
  cases m.screen.toList.find? (1 < ·) with
  | some b => exact ⟨_, rfl⟩
  | none => exact ⟨_, rfl⟩

end Checked.Cursor

theorem Checked.decode_eq (bytes : List UInt8) : decode bytes = .ok (Image.decode bytes) := by
  unfold decode
  rcases Nat.lt_trichotomy bytes.length Image.size with hlt | heq | hgt
  · rw [if_pos hlt, Image.decode, dif_neg (Nat.ne_of_lt hlt), if_pos hlt]
    rfl
  · obtain ⟨rest, hrest⟩ := Cursor.machine_eq heq
    rw [if_neg (Nat.not_lt.mpr heq.ge), if_neg (Nat.not_lt.mpr heq.le)]
    show (Prod.fst <$> Cursor.machine bytes) = _
    rw [hrest]
    rfl
  · rw [if_neg (Nat.not_lt.mpr hgt.le), if_pos hgt, Image.decode, dif_neg (Nat.ne_of_gt hgt),
      if_neg (Nat.not_lt.mpr hgt.le), minusIndex, if_pos hgt.le]
    rfl

namespace Image

variable {bytes : List UInt8} {d d' : Defect} {k : Nat} {m : Machine}

/-! ### The checks -/

/-- **The checks of an image**, numbered in their order: the check with this number fails, and this is the defect.  Each is
told by itself, whatever the others come to. -/
inductive Fails (bytes : List UInt8) : Nat → Defect → Prop
  | truncated (h : bytes.length < 6204) : Fails bytes 0 (.truncated bytes.length)
  | trailing (h : 6204 < bytes.length) : Fails bytes 1 (.trailing (bytes.length - 6204))
  -- the letters `C8SS`
  | signature (h : ¬ [0x43, 0x38, 0x53, 0x53] <+: bytes) : Fails bytes 2 .signature
  | version {b : UInt8} (hb : bytes[4]? = some b) (h : b ≠ 1) : Fails bytes 3 (.version b)
  | stackPointer {b : UInt8} (hb : bytes[4153]? = some b) (h : 16 < b.toNat) : Fails bytes 4 (.stackPointer b)
  | cell {b : UInt8} (h : (bytes.drop 4156).find? (fun b => b ≠ 0 ∧ b ≠ 1) = some b) : Fails bytes 5 (.cell b)

/-- The bytes have the format of an image. -/
structure Formatted (bytes : List UInt8) : Prop where
  length : bytes.length = 6204
  signature : [0x43, 0x38, 0x53, 0x53] <+: bytes
  version : bytes[4]? = some 1
  stackPointer : ∃ sp, bytes[4153]? = some sp ∧ sp.toNat ≤ 16
  cells : ∀ b ∈ bytes.drop 4156, b = 0 ∨ b = 1

theorem Fails.unique (h : Fails bytes k d) (h' : Fails bytes k d') : d = d' := by
  cases h with
  | truncated | trailing | signature => cases h' with | _ => rfl
  | version hb =>
    cases h' with
    | version hb' => rw [Option.some.inj (hb.symm.trans hb')]
  | stackPointer hb =>
    cases h' with
    | stackPointer hb' => rw [Option.some.inj (hb.symm.trans hb')]
  | cell hb =>
    cases h' with
    | cell hb' => rw [Option.some.inj (hb.symm.trans hb')]

theorem one_lt_iff (b : UInt8) : 1 < b ↔ b ≠ 0 ∧ b ≠ 1 := by
  simp only [UInt8.lt_iff_toNat_lt, ne_eq, ← UInt8.toNat_inj, UInt8.reduceToNat]
  omega

/-- Bytes of the right number have the format iff no check fails. -/
theorem formatted_iff : Formatted bytes ↔ ∀ k d, ¬ Fails bytes k d := by
  constructor
  · intro h k d hfails
    cases hfails with
    | truncated hlen => exact absurd h.length (Nat.ne_of_lt hlen)
    | trailing hlen => exact absurd h.length (Nat.ne_of_gt hlen)
    | signature hsig => exact hsig h.signature
    | version hb hne => exact hne (Option.some.inj (hb.symm.trans h.version))
    | stackPointer hb hlt =>
      obtain ⟨sp, hsp, hle⟩ := h.stackPointer
      rw [Option.some.inj (hb.symm.trans hsp)] at hlt
      exact absurd hle (Nat.not_le.mpr hlt)
    | @cell b hfind =>
      have hcell : b ≠ 0 ∧ b ≠ 1 := by simpa using List.find?_some hfind
      rcases h.cells b (List.mem_of_find?_eq_some hfind) with hzero | hone
      · exact hcell.1 hzero
      · exact hcell.2 hone
  · intro h
    have hlen : bytes.length = 6204 := by
      rcases Nat.lt_trichotomy bytes.length 6204 with hlt | heq | hgt
      · exact absurd (.truncated hlt) (h 0 _)
      · exact heq
      · exact absurd (.trailing hgt) (h 1 _)
    refine ⟨hlen, ?_, ?_, ?_, fun b hb => ?_⟩
    · by_contra hsig
      exact h 2 _ (.signature hsig)
    · by_contra hversion
      have hb : bytes[4]? = some bytes[4] := List.getElem?_eq_getElem (by omega)
      exact h 3 _ (.version hb fun hone => hversion (hone ▸ hb))
    · have hb : bytes[4153]? = some bytes[4153] := List.getElem?_eq_getElem (by omega)
      refine ⟨_, hb, Nat.not_lt.mp fun hlt => h 4 _ (.stackPointer hb hlt)⟩
    · cases hfind : (bytes.drop 4156).find? (fun b => b ≠ 0 ∧ b ≠ 1) with
      | some b' => exact absurd (.cell hfind) (h 5 _)
      | none =>
        have hcell := List.find?_eq_none.mp hfind b hb
        rw [decide_eq_true_eq] at hcell
        by_cases hzero : b = 0
        · exact .inl hzero
        · exact .inr (not_not.mp fun hone => hcell ⟨hzero, hone⟩)

/-! ### The decoder -/

theorem toList_screen (h : bytes.length = 6204) : (layout bytes h).screen.toList = bytes.drop 4156 := by
  have hscreen := (block_eq_iff (show 4156 + 2048 ≤ bytes.length by omega) _).mp rfl
  rw [List.take_of_length_le (by simp [h])] at hscreen
  exact hscreen.symm

/-- Of bytes of the right number, the decoder checks what the checks say. -/
theorem fails_iff (h : bytes.length = 6204) (hfour : 4 < bytes.length) : Fails bytes k d ↔
    k = 2 ∧ bytes.take 4 ≠ signature ∧ d = .signature ∨
    k = 3 ∧ byte bytes 4 hfour ≠ version ∧ d = .version (byte bytes 4 hfour) ∨
    k = 4 ∧ 16 < (layout bytes h).sp ∧ d = .stackPointer (layout bytes h).sp ∨
    k = 5 ∧ ∃ b, (layout bytes h).screen.toList.find? (1 < ·) = some b ∧ d = .cell b := by
  have hversion : bytes[4]? = some (byte bytes 4 hfour) := List.getElem?_eq_getElem _
  have hsp : bytes[4153]? = some (layout bytes h).sp := List.getElem?_eq_getElem _
  have hprefix : [0x43, 0x38, 0x53, 0x53] <+: bytes ↔ bytes.take 4 = signature :=
    List.prefix_iff_eq_take.trans eq_comm
  simp only [toList_screen h, one_lt_iff, ne_eq, ← hprefix]
  constructor
  · intro hfails
    cases hfails with
    | truncated hlen | trailing hlen => omega
    | signature hsig => exact .inl ⟨rfl, hsig, rfl⟩
    | version hb hne =>
      cases hversion.symm.trans hb
      exact .inr (.inl ⟨rfl, hne, rfl⟩)
    | stackPointer hb hlt =>
      cases hsp.symm.trans hb
      exact .inr (.inr (.inl ⟨rfl, hlt, rfl⟩))
    | @cell b hfind => exact .inr (.inr (.inr ⟨rfl, b, hfind, rfl⟩))
  · rintro (⟨rfl, hsig, rfl⟩ | ⟨rfl, hne, rfl⟩ | ⟨rfl, hlt, rfl⟩ | ⟨rfl, b, hfind, rfl⟩)
    · exact .signature hsig
    · exact .version hversion hne
    · exact .stackPointer hsp hlt
    · exact .cell hfind

/-- What the decoder refuses fails one of the checks and none before it. -/
theorem fails_of_decode (h : decode bytes = .error d) : ∃ k, Fails bytes k d ∧ ∀ j < k, ∀ d', ¬ Fails bytes j d' := by
  unfold decode at h
  by_cases hlen : bytes.length = 6204
  · rw [dif_pos hlen] at h
    dsimp only at h
    simp only [fails_iff hlen (by omega)]
    split_ifs at h with hsig hversion hsp
    · cases h
      exact ⟨2, .inl ⟨rfl, hsig, rfl⟩, by omega⟩
    · cases h
      exact ⟨3, .inr (.inl ⟨rfl, hversion, rfl⟩), by grind⟩
    · cases h
      exact ⟨4, .inr (.inr (.inl ⟨rfl, hsp, rfl⟩)), by grind⟩
    · split at h
      · next b hb =>
        cases h
        exact ⟨5, .inr (.inr (.inr ⟨rfl, b, hb, rfl⟩)), by grind⟩
      · cases h
  · rw [dif_neg hlen] at h
    split_ifs at h with hlt
    · cases h
      exact ⟨0, .truncated hlt, fun j hj => absurd hj (Nat.not_lt_zero j)⟩
    · cases h
      refine ⟨1, .trailing (by simp only [size] at *; omega), fun j hj d' hd' => ?_⟩
      cases hd' with
      | truncated hlt' => exact hlt hlt'
      | _ => omega

/-- What the decoder takes fails none of the checks. -/
theorem not_fails_of_decode (h : decode bytes = .ok m) (k : Nat) (d : Defect) : ¬ Fails bytes k d := by
  obtain ⟨hm, rfl⟩ := decode_eq_ok_iff.mp h
  have hlen := length_encode m
  obtain ⟨hsig, hversion, hlayout⟩ := (eq_encode_iff hlen m).mp rfl
  obtain ⟨hsp, hcells⟩ := (wellFormed_iff m).mp hm
  rw [fails_iff hlen (hlen ▸ by decide), hlayout, hcells]
  rintro (⟨-, hne, -⟩ | ⟨-, hne, -⟩ | ⟨-, hlt, -⟩ | ⟨-, b, hb, -⟩)
  · exact hne hsig
  · exact hne hversion
  · exact hsp hlt
  · cases hb

theorem decode_eq_error_iff :
    decode bytes = .error d ↔ ∃ k, Fails bytes k d ∧ ∀ j < k, ∀ d', ¬ Fails bytes j d' := by
  refine ⟨fails_of_decode, ?_⟩
  rintro ⟨k, hk, hfirst⟩
  cases hdecode : decode bytes with
  | ok m => exact absurd hk (not_fails_of_decode hdecode k d)
  | error d' =>
    obtain ⟨k', hk', hfirst'⟩ := fails_of_decode hdecode
    have hkk' : k = k' := by
      rcases Nat.lt_trichotomy k k' with hlt | heq | hgt
      · exact absurd hk (hfirst' k hlt d)
      · exact heq
      · exact absurd hk' (hfirst k' hgt d')
    subst hkk'
    rw [hk.unique hk']

theorem decodes_iff : (∃ m, decode bytes = .ok m) ↔ Formatted bytes := by
  rw [formatted_iff]
  constructor
  · rintro ⟨m, hm⟩
    exact not_fails_of_decode hm
  · intro h
    cases hdecode : decode bytes with
    | ok m => exact ⟨m, rfl⟩
    | error d =>
      obtain ⟨k, hk, -⟩ := fails_of_decode hdecode
      exact absurd hk (h k d)

/-! ### Words -/

theorem repr_injective : Function.Injective Nat.repr := by
  intro n n' h
  rw [Nat.repr_eq_ofList_toDigits, Nat.repr_eq_ofList_toDigits, String.ofList_inj] at h
  rw [← Nat.ofDigitChars_ten_toDigits (n := n), h, Nat.ofDigitChars_ten_toDigits]

theorem head?_append_of {t : String} {c : Char} (h : t.toList.head? = some c) (t' : String) :
    (t ++ t').toList.head? = some c := by
  rw [String.toList_append, List.head?_append, h]
  rfl

namespace Defect

/-- The letter that the words for a defect begin with, unless they begin with a number. -/
def initial? : Defect → Option Char
  | .truncated _ => some 't'
  | .trailing _ => none
  | .signature => some 'b'
  | .version _ => some 'u'
  | .stackPointer _ => some 's'
  | .cell _ => some 'p'

theorem filter_head_message (d : Defect) : d.message.toList.head?.filter (fun c => !c.isDigit) = d.initial? := by
  have hletter {c : Char} (h : d.message.toList.head? = some c) (hc : c.isDigit = false) :
      d.message.toList.head?.filter (fun c => !c.isDigit) = some c := by
    rw [h, Option.filter_some, hc]
    rfl
  cases d with
  | truncated n => exact hletter (head?_append_of (head?_append_of (head?_append_of (head?_append_of rfl _) _) _) _) rfl
  | trailing n =>
    obtain ⟨c, hhead⟩ : ∃ c, (Nat.toDigits 10 n).head? = some c :=
      ⟨_, List.head?_eq_some_head Nat.toDigits_ne_nil⟩
    have hdigit : c.isDigit = true := Nat.isDigit_of_mem_toDigits (by decide) (by decide) (List.mem_of_mem_head? hhead)
    have hfirst : n.repr.toList.head? = some c := by rw [Nat.repr_eq_ofList_toDigits, String.toList_ofList, hhead]
    have hmessage : (trailing n).message.toList.head? = some c := head?_append_of hfirst _
    rw [hmessage, Option.filter_some, hdigit]
    rfl
  | signature => exact hletter rfl rfl
  | version b => exact hletter (head?_append_of rfl _) rfl
  | stackPointer b | cell b => exact hletter (head?_append_of (head?_append_of rfl _) _) rfl

/-- Words with a number in them tell the number. -/
theorem number_of_words {t t' : String} {n n' : Nat} (h : t ++ n.repr ++ t' = t ++ n'.repr ++ t') : n = n' := by
  rw [String.append_left_inj, String.append_right_inj] at h
  exact repr_injective h

/-- The words tell which check has failed and what it has found. -/
theorem message_injective : Function.Injective message := by
  intro d d' h
  have hinitial : d.initial? = d'.initial? := by rw [← d.filter_head_message, ← d'.filter_head_message, h]
  cases d with
  | truncated n =>
    cases d' with
    | truncated n' =>
      have hwords : "truncated: " ++ n.repr ++ " of " ++ size.repr ++ " bytes" =
        "truncated: " ++ n'.repr ++ " of " ++ size.repr ++ " bytes" := h
      rw [String.append_left_inj, String.append_left_inj] at hwords
      rw [number_of_words hwords]
    | _ => cases hinitial
  | trailing n =>
    cases d' with
    | trailing n' => rw [repr_injective ((String.append_left_inj _).mp h)]
    | _ => cases hinitial
  | signature =>
    cases d' with
    | signature => rfl
    | _ => cases hinitial
  | version b =>
    cases d' with
    | version b' => rw [UInt8.toNat_inj.mp (repr_injective ((String.append_right_inj _).mp h))]
    | _ => cases hinitial
  | stackPointer b =>
    cases d' with
    | stackPointer b' => rw [UInt8.toNat_inj.mp (number_of_words h)]
    | _ => cases hinitial
  | cell b =>
    cases d' with
    | cell b' => rw [UInt8.toNat_inj.mp (number_of_words h)]
    | _ => cases hinitial

end Defect

/-! ### All together -/

/-- **An image is refused for its first defect.**  Whatever the bytes are, reading them never passes their end; a machine
comes out of them iff they have the format, and otherwise the error is that of the first check that fails, in words that
tell the check and what it has found. -/
theorem first_defect (bytes : List UInt8) :
    Checked.decode bytes = .ok (decode bytes) ∧
      ((∃ m, decode bytes = .ok m) ↔ Formatted bytes) ∧
      (∀ d, decode bytes = .error d ↔ ∃ k, Fails bytes k d ∧ ∀ j < k, ∀ d', ¬ Fails bytes j d') ∧
      (Formatted bytes ↔ ∀ k d, ¬ Fails bytes k d) ∧
      Function.Injective Defect.message ∧
      ∀ n, (Defect.truncated n).message = "truncated: " ++ toString n ++ " of 6204 bytes" := by
  refine ⟨Checked.decode_eq bytes, decodes_iff, fun d => decode_eq_error_iff, formatted_iff, Defect.message_injective,
    fun n => ?_⟩
  have hmessage : (Defect.truncated n).message = "truncated: " ++ toString n ++ " of " ++ "6204" ++ " bytes" := rfl
  rw [hmessage, String.append_assoc, String.append_assoc, String.append_assoc]
  rfl

end Image

end ChipEight
