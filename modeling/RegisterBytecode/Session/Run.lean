import RegisterBytecode.Session.Credit

/-!
# Compiling a whole program

`Session.drain` compiles queued constants until the queue stays empty; it ends because each batch
uses up credit. `Session.run` asks for the entry body, drains the queue and fills in the jumps,
and `compile` is a run from the start.
-/

namespace RegisterBytecode

namespace Session

/-- Compile queued constants, batch by batch, until the queue stays empty. -/
def drain (job : Job) (s : Session) : Outcome Session Unit :=
  if s.pending.isEmpty then .done () s
  else
    match _h : compileBatch job s.pending.toList { s with pending := #[] } with
    | .done _ s => drain job s
    | .failed e s => .failed e s
    | .fault f => .fault f
termination_by s.credit job
decreasing_by exact credit_lt_of_compileBatch ‹_› ‹_›

/-- Fill in the distances of all jumps. -/
def resolve (s : Session) : Outcome Session Unit :=
  match s.stream.resolve s.ranges with
  | .done _ stream => .done () { s with stream }
  | .failed e stream => .failed e { s with stream }
  | .fault f => .fault f

/-- Compile the whole program: the entry body, every constant that is asked for, and the jumps. -/
def run (job : Job) (s : Session) : Outcome Session Unit :=
  match job.program.get? job.program.entry with
  | some (.code _) =>
    (s.request job job.program.entry).bind fun _ s ↦
      (s.drain job).bind fun _ s ↦ s.resolve
  | _ => .failed ⟨.entryNotCode job.program.entry, none⟩ s

/-- The image of what is compiled so far. -/
def finish (s : Session) : Image := ⟨s.stream.code, s.pool, s.stream.lines⟩

end Session

/-- Compile a program. An error carries the last line that was reached. -/
def compile (program : Program) (config : Config) : Except Stop Image :=
  let job := Job.new program config
  match (Session.start job).run job with
  | .done _ s => .ok s.finish
  | .failed e s => .error (.error (e.orLine s.lastLine?))
  | .fault f => .error (.fault f)

end RegisterBytecode
