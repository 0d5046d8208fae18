import ChipEight.Proofs.Drawing
import ChipEight.Proofs.Image.Layout
import ChipEight.Stream

/-!
# Images there and back

`decode_eq_ok_iff` : bytes decode to a machine iff the machine is well-formed and the bytes are its image.  So a
well-formed machine has one image, which decodes to it, and nothing else decodes to it.

A source that delivers some bytes (`Source.Delivers`), in whatever pieces, decodes to what these bytes decode to; a sink
that goes on taking bytes (`Sink.Willing`), in whatever pieces, ends up with the image.
-/

namespace ChipEight

/-! ### Decoding -/

namespace Image

variable {bytes : List UInt8} {m : Machine}

/-- The checks of the decoder on the stack pointer and on the cells are those of well-formedness. -/
theorem wellFormed_iff (m : Machine) :
    m.WellFormed ↔ ¬ 16 < m.sp ∧ m.screen.toList.find? (1 < ·) = none := by
  simp only [List.find?_eq_none, decide_eq_true_eq, UInt8.not_lt]
  constructor
  · rintro ⟨hsp, hcell⟩
    refine ⟨hsp, fun b hb => ?_⟩
    obtain ⟨k, hk, rfl⟩ := List.getElem_of_mem hb
    exact hcell ⟨k, by simpa using hk⟩
  · rintro ⟨hsp, hcell⟩
    refine ⟨hsp, fun c => hcell _ ?_⟩
    simp [Bytes.get_eq_getElem]

theorem length_of_decode (h : decode bytes = .ok m) : bytes.length = 6204 := by
  by_contra hlen
  unfold decode at h
  rw [dif_neg hlen] at h
  split at h <;> cases h

/-- **What decodes is exactly the image of a well-formed machine.** -/
theorem decode_eq_ok_iff : decode bytes = .ok m ↔ m.WellFormed ∧ bytes = encode m := by
  by_cases hlen : bytes.length = 6204
  · rw [wellFormed_iff, eq_encode_iff hlen]
    unfold decode
    rw [dif_pos hlen]
    dsimp only
    split_ifs with h₁ h₂ h₃
    · simp [h₁]
    · simp [h₂]
    · constructor
      · intro h
        cases h
      · rintro ⟨⟨hsp, -⟩, -, -, rfl⟩
        exact absurd h₃ hsp
    · split
      · next b hb =>
        constructor
        · intro h
          cases h
        · rintro ⟨⟨-, hcell⟩, -, -, rfl⟩
          rw [hb] at hcell
          cases hcell
      · next hb =>
        constructor
        · intro h
          cases h
          exact ⟨⟨h₃, hb⟩, not_not.mp h₁, not_not.mp h₂, rfl⟩
        · rintro ⟨-, -, -, rfl⟩
          rfl
  · constructor
    · intro h
      exact absurd (length_of_decode h) hlen
    · rintro ⟨-, rfl⟩
      exact absurd (length_encode m) hlen

theorem decode_encode (h : m.WellFormed) : decode (encode m) = .ok m :=
  decode_eq_ok_iff.mpr ⟨h, rfl⟩

theorem wellFormed_of_decode (h : decode bytes = .ok m) : m.WellFormed := (decode_eq_ok_iff.mp h).1

theorem encode_injective : Function.Injective encode := by
  intro m m' h
  obtain ⟨-, -, hm⟩ := (eq_encode_iff (length_encode m) m).mp rfl
  obtain ⟨-, -, hm'⟩ := (eq_encode_iff (length_encode m) m').mp h
  exact hm.symm.trans hm'

end Image

/-! ### Piece by piece -/

/-- The source gives `bytes`, cut into pieces somehow, and is then at its end. -/
inductive Source.Delivers : Source → List UInt8 → Prop
  | empty : Delivers [] []
  | nothing {s : Source} : Delivers (.gives [] :: s) []
  | gives {s : Source} {b : UInt8} {bytes more : List UInt8} :
      Delivers s more → Delivers (.gives (b :: bytes) :: s) (b :: bytes ++ more)
  | interrupted {s : Source} {bytes : List UInt8} : Delivers s bytes → Delivers (.interrupted :: s) bytes

/-- The sink takes something of whatever it is handed, unless the request is interrupted. -/
def Sink.Willing (k : Sink) : Prop := ∀ a ∈ k.answers, a = .interrupted ∨ ∃ n, a = .takes (n + 1)

theorem Source.readAll_of_delivers {s : Source} {bytes : List UInt8} (h : s.Delivers bytes) :
    s.readAll = .ok bytes := by
  induction h with
  | empty => rfl
  | nothing => rfl
  | gives _ ih => simp only [readAll, ih]
  | interrupted _ ih => simpa only [readAll] using ih

theorem Source.delivers_of_readAll {s : Source} {bytes : List UInt8} (h : s.readAll = .ok bytes) :
    s.Delivers bytes := by
  fun_induction Source.readAll s generalizing bytes with
  | case1 =>
    cases h
    exact .empty
  | case2 =>
    cases h
    exact .nothing
  | case3 b piece s more hmore ih =>
    cases h
    exact .gives (ih hmore)
  | case4 => cases h
  | case5 s ih => exact .interrupted (ih h)
  | case6 => cases h

namespace Sink

theorem taken_of_handOver {taken bytes : List UInt8} {answers : List Answer} {k : Sink}
    (h : handOver taken answers bytes = (.ok (), k)) : k.taken = taken ++ bytes := by
  fun_induction handOver taken answers bytes with
  | case1 =>
    cases h
    simp
  | case2 =>
    cases h
    rfl
  | case3 => cases h
  | case4 taken n answers bytes _ ih =>
    rw [ih h, List.append_assoc, List.take_append_drop]
  | case5 _ _ _ _ ih => exact ih h
  | case6 => cases h

theorem handOver_of_willing {answers : List Answer} (h : ∀ a ∈ answers, a = .interrupted ∨ ∃ n, a = .takes (n + 1))
    (taken bytes : List UInt8) : ∃ k, handOver taken answers bytes = (.ok (), k) := by
  fun_induction handOver taken answers bytes with
  | case1 => exact ⟨_, rfl⟩
  | case2 => exact ⟨_, rfl⟩
  | case3 => simp at h
  | case4 _ _ _ _ _ ih => exact ih fun a ha => h a (List.mem_cons_of_mem _ ha)
  | case5 _ _ _ _ ih => exact ih fun a ha => h a (List.mem_cons_of_mem _ ha)
  | case6 => simp at h

end Sink

namespace Image

theorem readFrom_of_delivers {s : Source} {bytes : List UInt8} (h : s.Delivers bytes) :
    readFrom s = (decode bytes).mapError .invalidImage := by
  unfold readFrom
  rw [Source.readAll_of_delivers h]

/-- A machine that is read is the one of the bytes that the source delivers. -/
theorem delivers_of_readFrom {s : Source} {m : Machine} (h : readFrom s = .ok m) :
    ∃ bytes, s.Delivers bytes ∧ decode bytes = .ok m := by
  unfold readFrom at h
  split at h
  · cases h
  · next bytes hread =>
    refine ⟨bytes, Source.delivers_of_readAll hread, ?_⟩
    cases hd : decode bytes with
    | error d =>
      rw [hd] at h
      cases h
    | ok m' =>
      rw [hd] at h
      cases h
      rfl

theorem taken_of_writeTo {m : Machine} {k k' : Sink} (h : writeTo m k = (.ok (), k')) :
    k'.taken = k.taken ++ encode m := by
  unfold writeTo Sink.writeAll at h
  cases hk : Sink.handOver k.taken k.answers (encode m) with
  | mk r k₁ =>
    rw [hk] at h
    cases r with
    | error e => cases h
    | ok =>
      cases h
      exact Sink.taken_of_handOver hk

theorem writeTo_of_willing (m : Machine) {k : Sink} (h : k.Willing) : ∃ k', writeTo m k = (.ok (), k') := by
  obtain ⟨k', hk⟩ := Sink.handOver_of_willing h k.taken (encode m)
  refine ⟨k', ?_⟩
  unfold writeTo Sink.writeAll
  rw [hk]
  rfl

/-- **Images round-trip in both directions.**  Every image has the same length; the image of a well-formed machine
decodes to it; bytes that decode to a machine are its image; so machines with one image are equal and nothing but images
of well-formed machines decodes.  Sources and sinks change nothing about this, in whatever pieces the bytes pass. -/
theorem round_trip :
    (∀ m : Machine, (encode m).length = size) ∧
    (∀ m : Machine, m.WellFormed → decode (encode m) = .ok m) ∧
    (∀ (bytes : List UInt8) (m : Machine), decode bytes = .ok m → encode m = bytes) ∧
    (∀ m m' : Machine, encode m = encode m' → m = m') ∧
    (∀ bytes : List UInt8, (∃ m, decode bytes = .ok m) ↔ ∃ m : Machine, m.WellFormed ∧ encode m = bytes) ∧
    (∀ (s : Source) (bytes : List UInt8), s.Delivers bytes → readFrom s = (decode bytes).mapError .invalidImage) ∧
    (∀ (s : Source) (m : Machine), readFrom s = .ok m → s.Delivers (encode m)) ∧
    (∀ (m : Machine) (k : Sink), k.Willing → ∃ k', writeTo m k = (.ok (), k')) ∧
    (∀ (m : Machine) (k k' : Sink), writeTo m k = (.ok (), k') → k'.taken = k.taken ++ encode m) := by
  have hcanon : ∀ (bytes : List UInt8) (m : Machine), decode bytes = .ok m → encode m = bytes :=
    fun bytes m h => (decode_eq_ok_iff.mp h).2.symm
  refine ⟨length_encode, fun m h => decode_encode h, hcanon, fun m m' h => encode_injective h, fun bytes => ?_,
    fun s bytes h => readFrom_of_delivers h, fun s m h => ?_, fun m k h => writeTo_of_willing m h,
    fun m k k' h => taken_of_writeTo h⟩
  · constructor
    · rintro ⟨m, h⟩
      exact ⟨m, wellFormed_of_decode h, hcanon bytes m h⟩
    · rintro ⟨m, h, rfl⟩
      exact ⟨m, decode_encode h⟩
  · obtain ⟨bytes, hs, hd⟩ := delivers_of_readFrom h
    rwa [hcanon bytes m hd]

/-- A machine two calls deep, with both timers running and two opposite corners of the screen lit. -/
def midway : Machine :=
  { Machine.powerOn with
    v := Vector.ofFn fun k => .ofNat (3 * k.val)
    i := 0x0F23
    pc := 0x0ABC
    sp := 2
    stack := Vector.ofFn fun k => .ofNat (0x0202 + 0x0112 * k.val)
    delay := 9
    sound := 1
    screen := (Screen.blank.flip 0).flip 2047 }

theorem wellFormed_midway : midway.WellFormed where
  sp_le := by decide
  cell_le := Screen.get_flip_le (Screen.get_flip_le Screen.get_blank_le 0) 2047

def midwaySource : Source := [.gives [0x43], .interrupted, .gives ((encode midway).drop 1)]

def reluctantSink : Sink := { answers := [.takes 1, .interrupted, .takes 100] }

theorem round_trip_midway :
    midway.WellFormed ∧ decode (encode midway) = .ok midway ∧
    midwaySource.Delivers (encode midway) ∧ readFrom midwaySource = .ok midway ∧
    reluctantSink.Willing ∧ ∃ k, writeTo midway reluctantSink = (.ok (), k) ∧ k.taken = encode midway := by
  obtain ⟨-, hdecode, -, -, -, hread, -, hwrite, htaken⟩ := round_trip
  have hok := hdecode midway wellFormed_midway
  have hsource : midwaySource.Delivers (encode midway) := by
    have hlast : Source.Delivers [.gives ((encode midway).drop 1)] ((encode midway).drop 1 ++ []) := .gives .empty
    rw [List.append_nil] at hlast
    exact .gives (.interrupted hlast)
  have hsink : reluctantSink.Willing := by
    unfold Sink.Willing reluctantSink
    simp
  obtain ⟨k, hk⟩ := hwrite midway reluctantSink hsink
  refine ⟨wellFormed_midway, hok, hsource, ?_, hsink, k, hk, htaken midway reluctantSink k hk⟩
  rw [hread midwaySource _ hsource, hok]
  rfl

end Image

end ChipEight
