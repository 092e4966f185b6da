import PulseHits.Proofs.Storage.Tree

/-!
# Programs that share a tree

A program over a tree of files is carried out in one go. A `Job` is a program that stops before
each use of the storage, so that other jobs can use the tree in between. What is written once over
any storage is a job as it stands, and a job that is left to itself does what the program does
(`Simulates`). A `Pool` holds jobs that work on one tree; they take turns in any order.
-/

namespace PulseHits

/-- One use of the storage. -/
inductive Access where
  | pathExists (path : String)
  | names (path : String)
  | read (path : String)
  | write (path : String) (content : Bytes)

/-- What a use of the storage gives. -/
def Access.Answer : Access → Type
  | .pathExists _ => Bool
  | .names _ => Except IoError (List String)
  | .read _ => Except IoError Bytes
  | .write _ _ => Except IoError Unit

namespace FileTree

/-- What an access gives, and the tree as it is afterwards. -/
def answer (t : FileTree) : (op : Access) → op.Answer × FileTree
  | .pathExists path => (t.pathExists path, t)
  | .names path => (t.names path, t)
  | .read path => (t.read path, t)
  | .write path content =>
    match t.write path content with
    | .ok t' => (.ok (), t')
    | .error e => (.error e, t)

end FileTree

/-- A program that stops before each use of the storage. -/
inductive Job (α : Type) where
  | done (a : α)
  | access (op : Access) (next : op.Answer → Job α)

namespace Job

variable {α β : Type}

def bind : Job α → (α → Job β) → Job β
  | done a, f => f a
  | access op next, f => access op fun answer => (next answer).bind f

instance : Monad Job where
  pure := done
  bind := bind

theorem access_bind (op : Access) (next : op.Answer → Job α) (f : α → Job β) :
    access op next >>= f = access op fun answer => next answer >>= f := rfl

theorem bind_done (x : Job α) : x >>= done = x := by
  induction x with
  | done a => rfl
  | access op next ih =>
    rw [access_bind]
    congr 1
    funext answer
    exact ih answer

theorem bind_assoc {γ : Type} (x : Job α) (f : α → Job β) (g : β → Job γ) :
    x >>= f >>= g = x >>= fun a => f a >>= g := by
  induction x with
  | done a => rfl
  | access op next ih =>
    rw [access_bind, access_bind, access_bind]
    congr 1
    funext answer
    exact ih answer

instance : LawfulMonad Job :=
  LawfulMonad.mk' Job (fun x => bind_done x) (fun _ _ => rfl) bind_assoc

instance : Storage Job where
  pathExists path := access (.pathExists path) done
  names path := access (.names path) done
  read path := access (.read path) done
  write path content := access (.write path content) done

/-! ## Jobs left to themselves -/

/-- Carries a job out in one go. -/
def run : Job α → FileTree → α × FileTree
  | done a, t => (a, t)
  | access op next, t => (next (t.answer op).1).run (t.answer op).2

theorem run_bind (x : Job α) (f : α → Job β) (t : FileTree) :
    (x >>= f).run t = (f (x.run t).1).run (x.run t).2 := by
  induction x generalizing t with
  | done a => rfl
  | access op next ih =>
    rw [access_bind, run, run]
    exact ih _ _

/-- Left to itself, the job does what the program does. -/
def Simulates (x : Job α) (y : StateM FileTree α) : Prop :=
  ∀ t, x.run t = y.run t

namespace Simulates

theorem pure (a : α) : Simulates (pure a) (pure a) := fun _ => rfl

theorem bind {x : Job α} {y : StateM FileTree α} {f : α → Job β} {g : α → StateM FileTree β}
    (hx : Simulates x y) (hf : ∀ a, Simulates (f a) (g a)) : Simulates (x >>= f) (y >>= g) := by
  intro t
  rw [run_bind, FileTree.run_bind, hx t]
  exact hf _ _

theorem pathExists (path : String) :
    Simulates (Storage.pathExists path) (Storage.pathExists path) := fun _ => rfl

theorem names (path : String) : Simulates (Storage.names path) (Storage.names path) :=
  fun _ => rfl

theorem read (path : String) : Simulates (Storage.read path) (Storage.read path) := fun _ => rfl

theorem write (path : String) (content : Bytes) :
    Simulates (Storage.write path content) (Storage.write path content) := by
  intro t
  show (match t.write path content with
    | .ok t' => ((.ok (), t') : Except IoError Unit × FileTree)
    | .error e => (.error e, t)) = (match t.write path content with
    | .ok t => (do set t; return .ok () : StateM FileTree (Except IoError Unit))
    | .error e => return .error e).run t
  cases t.write path content <;> rfl

theorem mapM {γ : Type} {f : γ → Job α} {g : γ → StateM FileTree α}
    (h : ∀ x, Simulates (f x) (g x)) (xs : List γ) : Simulates (xs.mapM f) (xs.mapM g) := by
  induction xs with
  | nil => exact pure _
  | cons x xs ih =>
    rw [List.mapM_cons, List.mapM_cons]
    exact (h x).bind fun _ => ih.bind fun _ => pure _

end Simulates

/-! ## Turns -/

/-- Carries out the next access of a job. -/
def step : Job α → FileTree → Job α × FileTree
  | done a, t => (done a, t)
  | access op next, t => (next (t.answer op).1, (t.answer op).2)

end Job

/-- Jobs that work on one tree. -/
structure Pool (α : Type) where
  jobs : List (Job α)
  tree : FileTree

namespace Pool

variable {α : Type}

/-- It is the turn of a job: its next access is carried out. -/
def turn (p : Pool α) (i : Nat) : Pool α :=
  match p.jobs[i]? with
  | some job => ⟨p.jobs.set i (job.step p.tree).1, (job.step p.tree).2⟩
  | none => p

/-- The jobs take turns in the given order. -/
def interleave (p : Pool α) (turns : List Nat) : Pool α :=
  turns.foldl turn p

end Pool

end PulseHits
