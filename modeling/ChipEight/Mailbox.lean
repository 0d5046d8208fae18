import ChipEight.Machine

/-!
# The mailbox of a run

The processor of a run belongs to the instruction clock; whoever wants it copied or replaced sends a job (`Command`) and
waits for the reply.  Every job has a ticket, by which its reply is found.
-/

namespace ChipEight

/-- What the instruction clock can be asked to do between two batches. -/
inductive Job where
  | capture
  | restore (m : Machine)
  deriving DecidableEq

inductive Reply where
  | captured (m : Machine)
  | restored
  deriving DecidableEq

/-- Jobs waiting in the order they were sent, replies not yet collected, and the ticket of the next job. -/
structure Mailbox where
  jobs : List (Nat × Job) := []
  replies : List (Nat × Reply) := []
  next : Nat := 0
  deriving DecidableEq

namespace Mailbox

def post (m : Mailbox) (j : Job) : Mailbox := { m with jobs := m.jobs ++ [(m.next, j)], next := m.next + 1 }

/-- Answers a job that was taken off the queue. -/
def reply (m : Mailbox) (ticket : Nat) (r : Reply) : Mailbox := { m with replies := m.replies ++ [(ticket, r)] }

/-- The reply to a job, if there is one, and the mailbox without it. -/
def collect? (m : Mailbox) (ticket : Nat) : Option (Reply × Mailbox) :=
  (m.replies.find? (·.1 == ticket)).map fun r =>
    (r.2, { m with replies := m.replies.filter (·.1 != ticket) })

/-- Throws away the jobs that wait: nobody listens any more. -/
def close (m : Mailbox) : Mailbox := { m with jobs := [] }

end Mailbox

end ChipEight
