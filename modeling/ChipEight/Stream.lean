import ChipEight.DeskError

/-!
# Sources and sinks

What gives and what takes bytes piece by piece.  A request may be answered in part only; one that is interrupted is made
again; one that fails ends the transfer.

* `Source.readAll` : all bytes of a source up to its end.
* `Sink.writeAll` : puts bytes into a sink, in as many requests as that takes.
* `Image.readFrom`, `Image.writeTo` : images that come from a source and go to a sink.
-/

namespace ChipEight

/-- What a source answers when it is asked for bytes.  No bytes at all mean that there are no more. -/
inductive Source.Answer where
  | gives (bytes : List UInt8)
  | interrupted
  | fails (e : SystemError)
  deriving DecidableEq, Repr

/-- A source, as its answers in order; behind them it is at its end. -/
abbrev Source := List Source.Answer

/-- All bytes up to the end of a source, or the error that comes before it. -/
def Source.readAll : Source → Except SystemError (List UInt8)
  | [] | .gives [] :: _ => .ok []
  | .gives (b :: bytes) :: s =>
    match readAll s with
    | .ok more => .ok (b :: bytes ++ more)
    | .error e => .error e
  | .interrupted :: s => readAll s
  | .fails e :: _ => .error e

/-- What a sink answers when it is handed bytes: how many of them it takes at most, or why it takes none. -/
inductive Sink.Answer where
  | takes (n : Nat)
  | interrupted
  | fails (e : SystemError)
  deriving DecidableEq, Repr

/-- A sink: the bytes it has taken, and its answers in order; behind them it takes whatever it is handed. -/
structure Sink where
  taken : List UInt8 := []
  answers : List Sink.Answer := []
  deriving DecidableEq, Repr

/-- Hands bytes to a sink that has `taken` others until it has taken all; its answers are given in order. -/
def Sink.handOver (taken : List UInt8) : List Sink.Answer → List UInt8 → Except SystemError Unit × Sink
  | answers, [] => (.ok (), { taken, answers })
  | [], bytes => (.ok (), { taken := taken ++ bytes })
  | .takes 0 :: answers, _ => (.error .nothingTaken, { taken, answers })
  | .takes (n + 1) :: answers, bytes => handOver (taken ++ bytes.take (n + 1)) answers (bytes.drop (n + 1))
  | .interrupted :: answers, bytes => handOver taken answers bytes
  | .fails e :: answers, _ => (.error e, { taken, answers })

def Sink.writeAll (k : Sink) (bytes : List UInt8) : Except SystemError Unit × Sink :=
  handOver k.taken k.answers bytes

namespace Image

def readFrom (s : Source) : Except DeskError Machine :=
  match s.readAll with
  | .error e => .error (.system e)
  | .ok bytes => (decode bytes).mapError .invalidImage

def writeTo (m : Machine) (k : Sink) : Except DeskError Unit × Sink :=
  let (r, k) := k.writeAll (encode m)
  (r.mapError .system, k)

end Image

end ChipEight
