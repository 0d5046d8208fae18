import ChipEight.Proofs.Office.Erasure
import ChipEight.Proofs.Office.Errands

/-!
# The speed keys

The two speed keys (`handle` with `Faster` and `Slower`), pressed in any order and any number of times, while the clocks
move.

* `Control.paced`, `paced` : the rate after one key, and after several.
* `Scene.rate_clocked` : the clocks leave the rate alone.
* `Procedure.Handles` : a procedure that does what some keys ask for and nothing else.
* `Errand.speed_keys` : what becomes of the machine.
* `slower_speeds_up` : the key for less speed can make a slow machine faster.
-/

namespace ChipEight

def Happening.KeepsRate : Happening → Prop
  | .rate _ => False
  | _ => True

/-! ### Rates -/

def Control.Speeds (k : Control) : Prop := k = .faster ∨ k = .slower

def Control.paced (k : Control) (hz : UInt32) : UInt32 :=
  match k with
  | .faster => Order.faster hz
  | .slower => Order.slower hz
  | _ => hz

/-- The rate after these keys, one after the other. -/
def paced (keys : List Control) (hz : UInt32) : UInt32 := keys.foldl (fun hz k => k.paced hz) hz

theorem paced_append (keys keys' : List Control) (hz : UInt32) :
    paced (keys ++ keys') hz = paced keys' (paced keys hz) := List.foldl_append

namespace Order

theorem toNat_faster (hz : UInt32) : (faster hz).toNat = min (hz.toNat + 100) (UInt32.size - 1) := by
  have hmin : min (hz.toNat + 100) (UInt32.size - 1) < UInt32.size := by
    unfold UInt32.size
    omega
  exact Nat.mod_eq_of_lt hmin

theorem toNat_slower (hz : UInt32) : (slower hz).toNat = max (hz.toNat - 100) 100 := by
  have hmax : max (hz.toNat - 100) 100 < UInt32.size := by
    have hlt := hz.toNat_lt_size
    unfold UInt32.size at *
    omega
  exact Nat.mod_eq_of_lt hmax

theorem le_faster (hz : UInt32) : hz ≤ faster hz := by
  have hlt := hz.toNat_lt_size
  rw [UInt32.le_iff_toNat_le, toNat_faster]
  omega

/-- The key for less speed does not give more if and only if the rate is one step or more. -/
theorem slower_le_iff (hz : UInt32) : slower hz ≤ hz ↔ 100 ≤ hz := by
  rw [UInt32.le_iff_toNat_le, UInt32.le_iff_toNat_le, toNat_slower]
  show max (hz.toNat - 100) 100 ≤ hz.toNat ↔ 100 ≤ hz.toNat
  omega

end Order

theorem Control.Speeds.le_toNat_paced {k : Control} (hk : k.Speeds) (hz : UInt32) : 100 ≤ (k.paced hz).toNat := by
  obtain rfl | rfl := hk
  · rw [Control.paced, Order.toNat_faster]
    unfold UInt32.size
    omega
  · rw [Control.paced, Order.toNat_slower]
    omega

theorem paced_ne_zero {keys : List Control} (hkeys : ∀ k ∈ keys, k.Speeds) {hz : UInt32} (hhz : hz ≠ 0) :
    paced keys hz ≠ 0 := by
  induction keys generalizing hz with
  | nil => exact hhz
  | cons k keys ih =>
    refine ih (fun k hk => hkeys k (List.mem_cons_of_mem _ hk)) ?_
    intro hzero
    have hle := (hkeys k List.mem_cons_self).le_toNat_paced hz
    have hpaced : (k.paced hz).toNat = 0 := congrArg UInt32.toNat hzero
    omega

theorem Control.Speeds.setRate_eq {k : Control} (hk : k.Speeds) (b : Board) (hz : UInt32) :
    b.setRate (k.paced hz) = { b with rate := k.paced hz } := by
  have hone : ¬ k.paced hz ≤ 1 := by
    rw [UInt32.le_iff_toNat_le, UInt32.toNat_one]
    have hle := hk.le_toNat_paced hz
    omega
  have hmax : max (k.paced hz) 1 = k.paced hz := if_neg hone
  unfold Board.setRate
  rw [hmax]

/-! ### The clocks -/

namespace Console

variable {sc : Scenario}

theorem rate_foldl_happen (c : Console) {xs : List Happening} (hxs : ∀ x ∈ xs, x.KeepsRate) :
    (xs.foldl happen c).board.rate = c.board.rate := by
  induction xs generalizing c with
  | nil => rfl
  | cons x xs ih =>
    refine (ih _ fun y hy => hxs y (List.mem_cons_of_mem x hy)).trans ?_
    cases x with
    | rate hz => exact (hxs (.rate hz) List.mem_cons_self).elim
    | mode | post | death => rfl

theorem rate_instr (hkeeps : sc.Only Happening.KeepsRate) (c : Console) (r : Runner) (left : Nat) :
    (c.instr sc r left).board.rate = c.board.rate := by
  have hexecuted : (c.executed sc r left).board.rate = c.board.rate := by
    obtain ⟨journal, heq⟩ := exists_executed_eq sc c r left
    rw [heq]
    exact rate_foldl_happen _ (hkeeps.during _ _)
  rcases instr_cases sc c r left with ⟨journal, hinstr⟩ | hinstr
  all_goals
    rw [hinstr]
    exact hexecuted

theorem rate_runnerMove (hkeeps : sc.Only Happening.KeepsRate) (due : Bool) (c : Console) (r : Runner) :
    (c.runnerMove sc due r).board.rate = c.board.rate := by
  rcases batch_or_between r with ⟨left, hstage⟩ | hmid
  · rw [runnerMove_of_batch hstage]
    exact rate_instr hkeeps c r left
  · exact (betweenInstrs_runnerMove hmid due).rate

end Console

/-- **The clocks leave the rate alone.** -/
theorem Scene.rate_clocked {sc : Scenario} (hkeeps : sc.Only Happening.KeepsRate) (s : Scene) (t : Turn) :
    (s.clocked sc t).console.board.rate = s.console.board.rate := by
  cases t with
  | runner due =>
    simp only [clocked]
    split
    · exact Console.rate_runnerMove hkeeps due _ _
    · rfl
  | metronome due fatal =>
    simp only [clocked]
    split
    · rw [(Console.metronomeMove_eq _ due _).2.2]
    · rfl
  | desk | call | refuse | file => rfl

/-! ### What the desk does -/

def Action.Paces : Action → Prop
  | .readRate | .setRate _ | .note (.rateSet _) => True
  | _ => False

/-- It changes the rate and the journal at most, and nobody has to wait. -/
theorem Console.act_of_paces {a : Action} (ha : a.Paces) {c c' : Console} {x : a.Answer}
    (hact : c.act a = some (x, c')) :
    a.events x = [] ∧ ∃ rate journal, c' = { c with board := { c.board with rate }, journal } := by
  cases a with
  | readRate =>
    cases hact
    exact ⟨rfl, c.board.rate, c.journal, rfl⟩
  | setRate hz =>
    cases hact
    exact ⟨rfl, max hz 1, c.journal, rfl⟩
  | note n =>
    cases n with
    | rateSet hz =>
      cases hact
      exact ⟨rfl, c.board.rate, _, rfl⟩
    | _ => exact ha.elim
  | _ => exact ha.elim

theorem Console.yields_of_paces {a : Action} (ha : a.Paces) (c : Console) : c.Yields a := by
  cases a with
  | collect | joinRunner | joinMetronome => exact ha.elim
  | _ => trivial

namespace Procedure

variable {α β : Type}

theorem Within.secures {sc : Scenario} {F : Action → Prop} {D : Scene → Action → Prop} {Q : α → Prop} {p : Procedure α}
    (h : p.Within (fun _ _ => True) F Q) (hF : ∀ s a, F a → D s a) (s : Scene) :
    p.Secures sc D (fun r _ => Q r) s := by
  induction p generalizing s with
  | done r => exact Secures.done h
  | act a next ih =>
    refine .act (fun s' _ => hF s' a h.1) ?_
    intro s' _ x c _
    exact ih x (h.2 x trivial) _

/-- Where the rate is `hz`, the procedure does what these keys ask for, one after the other, and nothing else. -/
def Handles (keys : List Control) (hz : UInt32) (p : Procedure α) : Prop :=
  match p with
  | .done _ => keys = []
  | .act .readRate next => (next hz).Handles keys hz
  | .act (.setRate hz') next =>
    ∃ k left, keys = k :: left ∧ hz' = k.paced hz ∧ (next ()).Handles left (k.paced hz)
  | .act (.note (.rateSet _)) next => (next ()).Handles keys hz
  | _ => False

end Procedure

namespace Order

/-- The desk does what these keys ask for, one after the other. -/
def obeyAll (program : List UInt8) : List Control → Procedure Unit
  | [] => .done ()
  | k :: keys => do
    obey program k
    obeyAll program keys

theorem handles_obey {program : List UInt8} {k : Control} (hk : k.Speeds) {p : Procedure Unit} {keys : List Control}
    {hz : UInt32} (hp : p.Handles keys (k.paced hz)) :
    (do obey program k
        p : Procedure Unit).Handles (k :: keys) hz := by
  obtain rfl | rfl := hk
  · exact ⟨.faster, keys, rfl, rfl, hp⟩
  · exact ⟨.slower, keys, rfl, rfl, hp⟩

theorem handles_obeyAll (program : List UInt8) {keys : List Control} (hkeys : ∀ k ∈ keys, k.Speeds) (hz : UInt32) :
    (obeyAll program keys).Handles keys hz := by
  induction keys generalizing hz with
  | nil => rfl
  | cons k keys ih =>
    exact handles_obey (hkeys k List.mem_cons_self) (ih (fun k hk => hkeys k (List.mem_cons_of_mem _ hk)) _)

theorem obey_paces {A : (a : Action) → a.Answer → Prop} (program : List UInt8) {k : Control} (hk : k.Speeds) :
    (obey program k).Within A Action.Paces fun _ => True := by
  obtain rfl | rfl := hk <;>
    exact ⟨trivial, fun _ _ => ⟨trivial, fun _ _ => ⟨trivial, fun _ _ => ⟨trivial, fun _ _ => trivial⟩⟩⟩⟩

theorem obeyAll_paces {A : (a : Action) → a.Answer → Prop} (program : List UInt8) {keys : List Control}
    (hkeys : ∀ k ∈ keys, k.Speeds) : (obeyAll program keys).Within A Action.Paces fun _ => True := by
  induction keys with
  | nil => trivial
  | cons k keys ih =>
    refine Procedure.Within.bind (obey_paces program (hkeys k List.mem_cons_self)) ?_
    intro _ _
    exact ih fun k hk => hkeys k (List.mem_cons_of_mem _ hk)

end Order

/-! ### Turns -/

namespace Errand

variable {sc : Scenario} {keys : List Control}

/-- Some of the keys are handled, and the rate is what they have made of it; the others are still to come. -/
def Midway (keys : List Control) (hz : UInt32) (s : Scene) (p : Procedure Unit) : Prop :=
  ∃ handled left, keys = handled ++ left ∧ s.console.board.rate = paced handled hz ∧
    p.Handles left s.console.board.rate

theorem Midway.act (hkeys : ∀ k ∈ keys, k.Speeds) {hz : UInt32} {s : Scene} {a : Action}
    {next : a.Answer → Procedure Unit} {x : a.Answer} {c : Console} (h : Midway keys hz s (.act a next))
    (hact : s.console.act a = some (x, c)) :
    Midway keys hz (s.did a x c) (next x) := by
  obtain ⟨handled, left, rfl, hrate, hhandles⟩ := h
  cases a with
  | readRate =>
    cases hact
    exact ⟨handled, left, rfl, hrate, hhandles⟩
  | setRate hz' =>
    cases hact
    obtain ⟨k, left, rfl, rfl, hhandles⟩ := hhandles
    have hk : k.Speeds := hkeys k (by simp)
    refine ⟨handled ++ [k], left, by simp, ?_, ?_⟩
    · show (s.console.board.setRate _).rate = _
      rw [hk.setRate_eq, paced_append, ← hrate]
      rfl
    · show (next ()).Handles left (s.console.board.setRate _).rate
      rw [hk.setRate_eq]
      exact hhandles
  | note n =>
    cases n with
    | rateSet hz' =>
      cases hact
      exact ⟨handled, left, rfl, hrate, hhandles⟩
    | _ => exact hhandles.elim
  | _ => exact hhandles.elim

theorem Midway.run (hkeeps : sc.Only Happening.KeepsRate) (hkeys : ∀ k ∈ keys, k.Speeds) {hz : UInt32} {e : Errand Unit}
    (h : Midway keys hz e.toScene e.rest) (turns : List Turn) :
    Midway keys hz (e.run sc turns).toScene (e.run sc turns).rest := by
  refine run_kept sc (I := Midway keys hz) ?_ ?_ h turns
  · rintro s p t ⟨handled, left, hsplit, hrate, hhandles⟩
    have hclocked := s.rate_clocked hkeeps t
    refine ⟨handled, left, hsplit, hclocked.trans hrate, ?_⟩
    rw [hclocked]
    exact hhandles
  · intro s a next x c h hact
    exact h.act hkeys hact

/-- **The speed keys**, in any order and any number of times, at a machine with any rate, while the clocks move.
* Under fair turns they are all handled.
* At every moment the rate is what the keys so far have made of it, and when all is done, what all of them have made of
  it.  It is never zero.  Nothing else is changed by the desk: the journal apart, a turn of it changes the rate at most.
* A key for more speed adds one step, or leads to the largest rate, and never makes the machine slower.
* A key for less speed takes one step away, but leaves one step at least; so it does not make the machine faster if and
  only if the rate was one step or more. -/
theorem speed_keys (hapart : sc.Only Happening.Apart) (hkeeps : sc.Only Happening.KeepsRate) (program : List UInt8)
    (hkeys : ∀ k ∈ keys, k.Speeds) {s : Scene} (hrate : s.console.board.rate ≠ 0) :
    let pressed : Errand Unit := ⟨s, Order.obeyAll program keys⟩
    let rate (handled : List Control) := paced handled s.console.board.rate
    (∀ σ, Fair σ → ∃ n s', pressed.along sc σ n = ⟨s', .done ()⟩) ∧
      (∀ turns, let e := pressed.run sc turns
        (∃ handled left, keys = handled ++ left ∧ e.console.board.rate = rate handled ∧
          (e.rest = .done () → left = [])) ∧
        e.console.board.rate ≠ 0 ∧
        ∃ rate journal, (e.advance sc .desk).toScene =
          ⟨{ e.console with board := { e.console.board with rate }, journal }, e.past⟩) ∧
      (∀ handled left, keys = handled ++ .faster :: left →
        (rate (handled ++ [.faster])).toNat = min ((rate handled).toNat + 100) (UInt32.size - 1) ∧
        rate handled ≤ rate (handled ++ [.faster])) ∧
      ∀ handled left, keys = handled ++ .slower :: left →
        (rate (handled ++ [.slower])).toNat = max ((rate handled).toNat - 100) 100 ∧
        (rate (handled ++ [.slower]) ≤ rate handled ↔ 100 ≤ rate handled) := by
  intro pressed rate
  have hwithin : (Order.obeyAll program keys).Within (fun _ _ => True) Action.Paces fun _ => True :=
    Order.obeyAll_paces program hkeys
  have hrate_append (handled : List Control) (k : Control) : rate (handled ++ [k]) = k.paced (rate handled) :=
    paced_append handled [k] _
  refine ⟨?_, ?_, ?_, ?_⟩
  · intro σ hfair
    have hsecures : (Order.obeyAll program keys).Secures sc (fun s a => s.console.Yields a) (fun _ _ => True) s :=
      hwithin.secures (fun s _ ha => s.console.yields_of_paces ha) s
    obtain ⟨n, s', ⟨⟩, hend⟩ := ends_soon hapart hfair (fun _ _ => id) hsecures
    exact ⟨n, s', hend⟩
  · intro turns e
    have hstart : Midway keys s.console.board.rate s (Order.obeyAll program keys) :=
      ⟨[], keys, rfl, rfl, Order.handles_obeyAll program hkeys _⟩
    obtain ⟨handled, left, hsplit, hhandled, hleft⟩ : Midway keys s.console.board.rate e.toScene e.rest :=
      Midway.run (e := pressed) hkeeps hkeys hstart turns
    refine ⟨⟨handled, left, hsplit, hhandled, ?_⟩, ?_, ?_⟩
    · intro hdone
      rw [hdone] at hleft
      exact hleft
    · rw [hhandled]
      refine paced_ne_zero (fun k hk => hkeys k ?_) hrate
      rw [hsplit]
      exact List.mem_append_left left hk
    · have hgrants : Scene.Grants sc (fun _ _ => True) Action.Paces (fun _ => False) fun _ => True :=
        ⟨fun _ _ => .inr trivial, fun _ _ _ => ⟨trivial, trivial⟩⟩
      rcases desk_turn hapart hgrants hwithin (s := s) trivial (rfl : pressed.run sc turns = e) with
        hwaits | ⟨a, x, c, ha, hact, hdid⟩
      · exact ⟨e.console.board.rate, e.console.journal, congrArg Errand.toScene hwaits⟩
      · obtain ⟨hquiet, rate, journal, rfl⟩ := Console.act_of_paces ha hact
        refine ⟨rate, journal, hdid.trans ?_⟩
        rw [Scene.did_of_quiet hquiet]
  · rintro handled left -
    rw [hrate_append]
    exact ⟨Order.toNat_faster _, Order.le_faster _⟩
  · rintro handled left -
    rw [hrate_append]
    exact ⟨Order.toNat_slower _, Order.slower_le_iff _⟩

/-- A program that does nothing is at work, at this many instructions a second. -/
def atWork (hz : UInt32) : Scene :=
  ((Office.new { cycleRate := hz }).run Office.alone (Office.session (.reset [0x12, 0x00]))).toScene

theorem speed_keys_atWork :
    let keys : List Control := [.slower, .faster, .slower]
    let pressed : Errand Unit := ⟨atWork 150, Order.obeyAll [] keys⟩
    (∀ k ∈ keys, k.Speeds) ∧ (atWork 150).console.board.mode = .running ∧ (atWork 150).console.board.rate = 150 ∧
      (∃ n s', pressed.along Office.alone Office.inTurn n = ⟨s', .done ()⟩) ∧
      ∀ turns, (pressed.run Office.alone turns).rest = .done () →
        (pressed.run Office.alone turns).console.board.rate = 100 := by
  intro keys pressed
  have hkeys : ∀ k ∈ keys, k.Speeds := by simp [keys, Control.Speeds]
  obtain ⟨hmode, hrate⟩ : (atWork 150).console.board.mode = .running ∧ (atWork 150).console.board.rate = 150 := by
    decide +kernel
  obtain ⟨hends, hruns, -, -⟩ := speed_keys (Office.only_alone _) (Office.only_alone _) [] hkeys
    (s := atWork 150) (by rw [hrate]; decide)
  refine ⟨hkeys, hmode, hrate, hends Office.inTurn Office.fair_inTurn, ?_⟩
  intro turns hdone
  obtain ⟨⟨handled, left, hsplit, hhandled, hleft⟩, -, -⟩ := hruns turns
  obtain rfl := hleft hdone
  rw [List.append_nil] at hsplit
  rw [hhandled, ← hsplit, hrate]
  decide

/-- **The key for less speed makes a slow machine faster.**  At fifty instructions a second it leads to a hundred. -/
theorem slower_speeds_up :
    let pressed : Errand Unit := ⟨atWork 50, Order.obey [] .slower⟩
    pressed.console.board.mode = .running ∧ pressed.console.board.rate = 50 ∧
      (pressed.run Office.alone (.replicate 4 .desk)).console.board.rate = 100 ∧
      ¬ (pressed.run Office.alone (.replicate 4 .desk)).console.board.rate ≤ pressed.console.board.rate := by
  decide +kernel

end Errand

end ChipEight
