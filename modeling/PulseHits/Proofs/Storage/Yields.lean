import Mathlib.Algebra.Ring.Nat
import Mathlib.Logic.Function.Basic
import PulseHits.Proofs.Storage.Agreement
import PulseHits.Proofs.Storage.Job

/-!
# Jobs that do not get in each other's way

`Yields C n job writes a` says of a job that it comes to the same end whatever happens to the tree
between its accesses, as long as the tree stays in `C`: after at most `n` accesses, among them the
given writes, it is done with `a`. One access keeps this (`Yields.step`), so jobs that write to
different places can take turns in any order (`Pool.Underway.turn`, `Pool.underway_interleave`): the
tree then holds at each place what the job that writes there would leave if it were alone, and with
enough turns every job is done.
-/

namespace PulseHits

open FileTree (writeAll)

/-- Whichever trees with `C` it finds, the job ends with `a` after at most `n` accesses, among them
the writes in `writes`. -/
inductive Job.Yields (C : FileTree → Prop) {α : Type} :
    Nat → Job α → List (Location × Bytes) → α → Prop
  | done (n : Nat) (a : α) : Yields C n (.done a) [] a
  | look {n : Nat} {op : Access} {next : op.Answer → Job α} {writes : List (Location × Bytes)}
      {a : α} (hsame : ∀ t, C t → (t.answer op).2 = t)
      (hnext : ∀ t, C t → Yields C n (next (t.answer op).1) writes a) :
      Yields C (n + 1) (.access op next) writes a
  | write {n : Nat} {op : Access} {next : op.Answer → Job α} {l : Location} {content : Bytes}
      {writes : List (Location × Bytes)} {a : α}
      (hwrite : ∀ t, C t → (t.answer op).2 = t.insert l (.file content))
      (hkept : ∀ t, C t → C (t.insert l (.file content)))
      (hnext : ∀ t, C t → Yields C n (next (t.answer op).1) writes a) :
      Yields C (n + 1) (.access op next) ((l, content) :: writes) a

namespace Job.Yields

variable {C : FileTree → Prop} {α β : Type} {n m : Nat} {job : Job α}
  {writes writes' : List (Location × Bytes)} {a : α} {b : β} {t : FileTree}

theorem mono (h : Yields C n job writes a) (hn : n ≤ m) : Yields C m job writes a := by
  induction h generalizing m with
  | done n a => exact .done m a
  | look hsame _ ih =>
    obtain ⟨m, rfl⟩ := Nat.exists_eq_add_of_le' (Nat.le_trans (Nat.le_add_left 1 _) hn)
    exact .look hsame fun t ht => ih t ht (Nat.le_of_succ_le_succ hn)
  | write hwrite hkept _ ih =>
    obtain ⟨m, rfl⟩ := Nat.exists_eq_add_of_le' (Nat.le_trans (Nat.le_add_left 1 _) hn)
    exact .write hwrite hkept fun t ht => ih t ht (Nat.le_of_succ_le_succ hn)

theorem bind {f : α → Job β} (h : Yields C n job writes a) (hf : Yields C m (f a) writes' b) :
    Yields C (n + m) (job >>= f) (writes ++ writes') b := by
  induction h with
  | done n a => exact hf.mono (Nat.le_add_left m n)
  | @look n op next writes a hsame _ ih =>
    rw [access_bind, Nat.add_right_comm]
    exact .look hsame fun t ht => ih t ht hf
  | @write n op next l content writes a hwrite hkept _ ih =>
    rw [access_bind, Nat.add_right_comm, List.cons_append]
    exact .write hwrite hkept fun t ht => ih t ht hf

theorem bind_of_nil {f : α → Job β} (h : Yields C n job [] a)
    (hf : Yields C m (f a) writes b) : Yields C (n + m) (job >>= f) writes b :=
  h.bind hf

theorem bind_of_done {f : α → Job β} (h : Yields C n job writes a)
    (hf : Yields C 0 (f a) [] b) : Yields C n (job >>= f) writes b := by
  have hbind := h.bind hf
  rwa [Nat.add_zero, List.append_nil] at hbind

theorem mapM {γ : Type} {f : γ → Job α} {due : γ → Nat} {written : γ → List (Location × Bytes)}
    {g : γ → α} {xs : List γ} (h : ∀ x ∈ xs, Yields C (due x) (f x) (written x) (g x)) :
    Yields C (xs.map due).sum (xs.mapM f) (xs.flatMap written) (xs.map g) := by
  induction xs with
  | nil => exact .done _ _
  | cons x xs ih =>
    rw [List.mapM_cons, List.map_cons, List.sum_cons, List.flatMap_cons]
    refine (h x List.mem_cons_self).bind ?_
    have hrest := ih fun y hy => h y (List.mem_cons_of_mem _ hy)
    rw [← Nat.add_zero (List.sum _), ← List.append_nil (List.flatMap _ xs)]
    refine hrest.bind ?_
    exact .done 0 _

/-! ### Single accesses -/

theorem pathExists {path : String} {found : Bool} (h : ∀ t, C t → t.pathExists path = found) :
    Yields C 1 (Storage.pathExists path) [] found := by
  refine .look (fun t _ => rfl) fun t ht => ?_
  show Yields C 0 (.done (t.pathExists path)) [] found
  rw [h t ht]
  exact .done 0 found

theorem read {path : String} {content : Except IoError Bytes}
    (h : ∀ t, C t → t.read path = content) : Yields C 1 (Storage.read path) [] content := by
  refine .look (fun t _ => rfl) fun t ht => ?_
  show Yields C 0 (.done (t.read path)) [] content
  rw [h t ht]
  exact .done 0 content

/-- What is done with the names in a directory may depend on the tree, as long as the end does
not. -/
theorem names_bind {path : String} {f : Except IoError (List String) → Job β}
    (h : ∀ t, C t → Yields C n (f (t.names path)) writes b) :
    Yields C (n + 1) (Storage.names path >>= f) writes b :=
  .look (fun _ _ => rfl) h

theorem write_ok {path : String} {content : Bytes} {l : Location}
    (h : ∀ t, C t → t.write path content = .ok (t.insert l (.file content)))
    (hkept : ∀ t, C t → C (t.insert l (.file content))) :
    Yields C 1 (Storage.write path content) [(l, content)] (.ok ()) := by
  have hanswer : ∀ t, C t →
      t.answer (.write path content) = (.ok (), t.insert l (.file content)) := fun t ht => by
    rw [FileTree.answer, h t ht]
  refine .write (fun t ht => ?_) hkept fun t ht => ?_
  · rw [hanswer t ht]
  · rw [hanswer t ht]
    exact .done 0 _

theorem write_error {path : String} {content : Bytes} {cause : IoError}
    (h : ∀ t, C t → t.write path content = .error cause) :
    Yields C 1 (Storage.write path content) [] (.error cause) := by
  have hanswer : ∀ t, C t → t.answer (.write path content) = (.error cause, t) := fun t ht => by
    rw [FileTree.answer, h t ht]
  refine .look (fun t ht => ?_) fun t ht => ?_
  · rw [hanswer t ht]
  · rw [hanswer t ht]
    exact .done 0 _

/-! ### Carrying out -/

/-- **One access.** What is left of the job yields the same end and the writes that are left. -/
theorem step (h : Yields C n job writes a) (ht : C t) :
    ∃ made left, writes = made ++ left ∧ (job.step t).2 = t.writeAll made ∧
      C (job.step t).2 ∧ Yields C (n - 1) (job.step t).1 left a := by
  cases h with
  | done n a => exact ⟨[], [], rfl, rfl, ht, .done _ _⟩
  | look hsame hnext =>
    refine ⟨[], writes, rfl, hsame t ht, ?_, hnext t ht⟩
    rw [Job.step, hsame t ht]
    exact ht
  | @write n op next l content writes a hwrite hkept hnext =>
    refine ⟨[(l, content)], writes, rfl, hwrite t ht, ?_, hnext t ht⟩
    rw [Job.step, hwrite t ht]
    exact hkept t ht

theorem eq_done (h : Yields C 0 job writes a) : job = .done a := by
  cases h
  rfl

theorem of_done {a' : α} (h : Yields C n (.done a') writes a) : a' = a ∧ writes = [] := by
  cases h
  exact ⟨rfl, rfl⟩

theorem run (h : Yields C n job writes a) (ht : C t) :
    job.run t = (a, t.writeAll writes) ∧ C (t.writeAll writes) := by
  induction h generalizing t with
  | done n a => exact ⟨rfl, ht⟩
  | look hsame _ ih =>
    obtain ⟨hrun, hC⟩ := ih t ht ht
    refine ⟨?_, hC⟩
    rw [Job.run, hsame t ht, hrun]
  | write hwrite hkept _ ih =>
    obtain ⟨hrun, hC⟩ := ih t ht (hkept t ht)
    refine ⟨?_, hC⟩
    rw [Job.run, hwrite t ht, hrun]
    rfl

end Job.Yields

/-! ## Taking turns -/

namespace Pool

variable {α : Type}

/-- The jobs are on their way from `t` to the ends `ends`: of its writes each has made those in
`made`, and it has at most `due` accesses to go. At a place where one job alone writes, the tree is
as that job has left it. -/
structure Underway (C : FileTree → Prop) (t : FileTree) (writes : Nat → List (Location × Bytes))
    (ends : Nat → α) (due : Nat → Nat) (made : Nat → List (Location × Bytes)) (p : Pool α) :
    Prop where
  inside : C p.tree
  yields : ∀ i job, p.jobs[i]? = some job →
    ∃ left, writes i = made i ++ left ∧ Job.Yields C (due i) job left (ends i)
  entry_eq : ∀ i l, (∀ j, j ≠ i → l ∉ (writes j).map (·.1)) →
    p.tree.entryAt? l = (t.writeAll (made i)).entryAt? l

variable {C : FileTree → Prop} {t : FileTree} {writes made : Nat → List (Location × Bytes)}
  {ends : Nat → α} {due : Nat → Nat} {p : Pool α}

/-- **One turn.** The job whose turn it is comes one access closer to its end. -/
theorem Underway.turn (h : Underway C t writes ends due made p) (i : Nat) :
    ∃ made', Underway C t writes ends (Function.update due i (due i - 1)) made' (p.turn i) := by
  rw [Pool.turn]
  cases hjob : p.jobs[i]? with
  | none =>
    refine ⟨made, h.inside, fun j job hj => ?_, h.entry_eq⟩
    have hne : j ≠ i := by
      rintro rfl
      cases hjob.symm.trans hj
    rw [Function.update_of_ne hne]
    exact h.yields j job hj
  | some job =>
    obtain ⟨left, hwrites, hyields⟩ := h.yields i job hjob
    obtain ⟨new, left', rfl, htree, hC, hstep⟩ := hyields.step h.inside
    refine ⟨Function.update made i (made i ++ new), hC, fun j job' hj => ?_, fun j l hl => ?_⟩
    · by_cases hji : j = i
      · subst hji
        have hlt : j < p.jobs.length := (List.getElem?_eq_some_iff.mp hjob).1
        rw [List.getElem?_set_self hlt] at hj
        cases hj
        rw [Function.update_self, Function.update_self]
        exact ⟨left', by rw [hwrites, List.append_assoc], hstep⟩
      · rw [List.getElem?_set_ne (Ne.symm hji)] at hj
        rw [Function.update_of_ne hji, Function.update_of_ne hji]
        exact h.yields j job' hj
    · show (job.step p.tree).2.entryAt? l = _
      rw [htree]
      by_cases hji : j = i
      · subst hji
        rw [Function.update_self, FileTree.writeAll_append]
        exact FileTree.entryAt?_writeAll_congr (h.entry_eq j l hl) new
      · -- the new writes are of another job, so they are not at `l`
        have hnew : l ∉ new.map (·.1) := by
          intro hmem
          refine hl i (Ne.symm hji) ?_
          rw [hwrites, List.map_append, List.map_append]
          exact List.mem_append_right _ (List.mem_append_left _ hmem)
        rw [Function.update_of_ne hji, FileTree.entryAt?_writeAll_of_notMem hnew]
        exact h.entry_eq j l hl

theorem underway_interleave (h : Underway C t writes ends due made p) (turns : List Nat) :
    ∃ made', Underway C t writes ends (fun i => due i - turns.count i) made'
      (p.interleave turns) := by
  induction turns generalizing p due made with
  | nil => exact ⟨made, h⟩
  | cons i turns ih =>
    obtain ⟨made', h'⟩ := h.turn i
    obtain ⟨made'', h''⟩ := ih h'
    refine ⟨made'', ?_⟩
    have hdue : (fun j => due j - (i :: turns).count j) =
        fun j => Function.update due i (due i - 1) j - turns.count j := by
      funext j
      by_cases hji : j = i
      · subst hji
        rw [Function.update_self, List.count_cons_self]
        omega
      · rw [Function.update_of_ne hji, List.count_cons_of_ne (Ne.symm hji)]
    rw [hdue]
    exact h''

/-- Every job is done. -/
def Finished (p : Pool α) (results : List α) : Prop :=
  p.jobs = results.map .done

theorem length_interleave (p : Pool α) (turns : List Nat) :
    (p.interleave turns).jobs.length = p.jobs.length := by
  induction turns generalizing p with
  | nil => rfl
  | cons i turns ih =>
    refine (ih (p.turn i)).trans ?_
    rw [turn]
    split
    · exact List.length_set
    · rfl

theorem Underway.finished (h : Underway C t writes ends due made p)
    (hdue : ∀ i < p.jobs.length, due i = 0) :
    p.Finished ((List.range p.jobs.length).map ends) := by
  refine List.ext_getElem? fun i => ?_
  rw [List.map_map, List.getElem?_map]
  by_cases hi : i < p.jobs.length
  · obtain ⟨left, -, hyields⟩ := h.yields i _ (List.getElem?_eq_getElem hi)
    rw [hdue i hi] at hyields
    rw [List.getElem?_eq_getElem hi, List.getElem?_range hi, hyields.eq_done]
    rfl
  · rw [List.getElem?_eq_none (Nat.le_of_not_lt hi), List.getElem?_eq_none (by simpa using hi)]
    rfl

/-- Jobs that are done have come to their ends and have made all of their writes. -/
theorem Underway.of_finished (h : Underway C t writes ends due made p) {results : List α}
    (hfinished : p.Finished results) {i : Nat} {a : α} (ha : results[i]? = some a) :
    a = ends i ∧ ∀ l, (∀ j, j ≠ i → l ∉ (writes j).map (·.1)) →
      p.tree.entryAt? l = (t.writeAll (writes i)).entryAt? l := by
  have hjob : p.jobs[i]? = some (.done a) := by
    rw [hfinished, List.getElem?_map, ha]
    rfl
  obtain ⟨left, hwrites, hyields⟩ := h.yields i _ hjob
  obtain ⟨rfl, rfl⟩ := hyields.of_done
  rw [List.append_nil] at hwrites
  refine ⟨rfl, fun l hl => ?_⟩
  rw [h.entry_eq i l hl, hwrites]

end Pool

end PulseHits
