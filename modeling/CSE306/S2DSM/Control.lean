/-! Control points of the three threads of one process, relative to the page a
thread is working on. Between two of them a thread makes at most one access to
what it shares with the others: an entry of `msi_array`, a page or a socket. -/
namespace CSE306.S2DSM

/-- The values of `msi_array`. -/
inductive Msi where
  | modified
  | shared
  | invalid
  deriving DecidableEq, Repr

inductive Stage (α : Type) where
  /-- `strncpy(page_buffer, address_loc, page_size)`; `again` in the loop over
  all pages, which prints `address_loc` and not the buffer. -/
  | load (again : Bool)
  | print
  | store (a : α)
  | mark (a : α)
  | echo (a : α)
  | notify (a : α)
  deriving DecidableEq, Repr

namespace Stage
variable {α β : Type}

def map (f : α → β) : Stage α → Stage β
  | .load again => .load again
  | .print => .print
  | .store a => .store (f a)
  | .mark a => .mark (f a)
  | .echo a => .echo (f a)
  | .notify a => .notify (f a)

/-- The next instruction of `main` touches the page, and blocks while it is absent. -/
def Touches : Stage α → Prop
  | .load _ | .print | .store _ | .echo _ => True
  | .mark _ | .notify _ => False

instance (st : Stage α) : Decidable st.Touches := by
  cases st <;> unfold Touches <;> infer_instance

/-- `main` has stored its message and not yet told the other process. -/
def Unsent : Stage α → Prop
  | .mark _ | .echo _ | .notify _ => True
  | .load _ | .print | .store _ => False

instance (st : Stage α) : Decidable st.Unsent := by
  cases st <;> unfold Unsent <;> infer_instance

/-- Where an access to one page starts. -/
def Entry : Stage α → Prop
  | .load _ | .store _ => True
  | _ => False

theorem Entry.sent {st : Stage α} (entry : st.Entry) : ¬ st.Unsent := by
  cases st with
  | load | store => exact id
  | print | mark | echo | notify => exact entry.elim

@[simp] theorem touches_map (f : α → β) (st : Stage α) : (st.map f).Touches ↔ st.Touches := by
  cases st <;> rfl

@[simp] theorem entry_map (f : α → β) (st : Stage α) : (st.map f).Entry ↔ st.Entry := by
  cases st <;> rfl

end Stage

/-- `fault_handler_thread` between reading a fault and resolving it. -/
inductive Resolve where
  | test
  | request
  | response
  | page
  | share
  | install
  deriving DecidableEq, Repr

/-- The handler has found the page INVALID and is fetching it. -/
def Resolve.Fetches : Resolve → Prop
  | .request | .response | .page | .share => True
  | .test | .install => False

/-- `server_thread` between reading a request and finishing it: `test` to
`share` for 'F', `drop` and `invalidate` for 'I'. -/
inductive Serve where
  | test
  | deny
  | grant
  | copy
  | share
  | drop
  | invalidate
  deriving DecidableEq, Repr

/-- The server owes the requester an answer, or the rest of one. -/
def Serve.Owes : Serve → Prop
  | .test | .deny | .grant | .copy => True
  | .share | .drop | .invalidate => False

instance (st : Serve) : Decidable st.Owes := by cases st <;> unfold Serve.Owes <;> infer_instance

end CSE306.S2DSM
