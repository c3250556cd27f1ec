import Cutpoint.Proofs.Path.Search

/-!
# The search as a loop over a stack

The basic paths can be found by a loop that takes one location after the other from a stack, and
puts there the locations that come next.

* `Procedure.turn`: what the loop does with the location it takes;
* `Procedure.Turns f n s t`: `n` turns lead from one state of the loop to another;
* `Procedure.exploreFrom_succ`: the recursive search does the same at a location, and then searches
  from what comes next, last to first;
* `Procedure.turns_of_explore`: so the loop gets through with all that the recursive search goes
  through;
* `stack_search_ends`: in a validated program the loop takes only finitely many locations from its
  stack, and finds the basic paths.
-/

set_option autoImplicit false

namespace Cutpoint

namespace Procedure

/-! ## Turns -/

/-- A location to go to, the path that leads there, and the loop heads passed on the way from the
entry. -/
structure Pending where
  location : Nat
  path : BasicPath
  memory : List Nat

/-- The paths that end at a location, and where to go next. -/
def turn (f : Procedure) (t : Pending) : Except Fault (List BasicPath × List Pending) := do
  let l ← f.location t.location
  let es := (← f.edges t.location).zipIdx
  let known := t.memory.contains t.location
  let restart := fun (memory : List Nat) =>
    es.map fun x => (⟨x.1.target, ⟨t.location, [(x.2, x.1.target)]⟩, memory⟩ : Pending)
  if l.hasCall then
    if l.isLoopHead && known then return ([t.path], [])
    else return ([t.path], restart (if l.isLoopHead then t.location :: t.memory else t.memory))
  else if t.location = f.exit then return ([t.path], [])
  else if l.isLoopHead then
    if known then return ([t.path], []) else return ([t.path], restart (t.location :: t.memory))
  else return ([], es.map fun x => ⟨x.1.target, t.path.extend x.2 x.1.target, t.memory⟩)

/-- Adds the paths that were not found before, one by one. -/
def record (found : List BasicPath) : List BasicPath → List BasicPath
  | [] => found
  | path :: paths => record (if path ∈ found then found else found ++ [path]) paths

/-- The state of the loop. -/
structure Agenda where
  /-- What is next comes first. -/
  stack : List Pending
  found : List BasicPath

/-- Before the first turn. -/
def agenda (f : Procedure) : Agenda := ⟨[⟨f.entry, ⟨f.entry, []⟩, []⟩], []⟩

/-- So many turns of the loop lead from one state to another. Every turn takes a location from the
stack. -/
inductive Turns (f : Procedure) : Nat → Agenda → Agenda → Prop
  | none (s : Agenda) : Turns f 0 s s
  | next {n : Nat} {t : Pending} {stack next : List Pending} {found closed : List BasicPath}
      {s : Agenda} (hturn : f.turn t = .ok (closed, next))
      (hrest : Turns f n ⟨next.reverse ++ stack, record found closed⟩ s) :
      Turns f (n + 1) ⟨t :: stack, found⟩ s

theorem Turns.trans {f : Procedure} {m n : Nat} {s t u : Agenda} (h : f.Turns m s t)
    (h' : f.Turns n t u) : f.Turns (m + n) s u := by
  induction h with
  | none s =>
    rw [Nat.zero_add]
    exact h'
  | @next m _ _ _ _ _ _ hturn _ ih =>
    rw [Nat.add_right_comm]
    exact .next hturn (ih h')

/-- A loop that has got through had no way to take more turns. -/
theorem Turns.le {f : Procedure} {m n : Nat} {s t : Agenda} {found : List BasicPath}
    (h : f.Turns n s ⟨[], found⟩) (h' : f.Turns m s t) : m ≤ n := by
  generalize hend : (⟨[], found⟩ : Agenda) = e at h
  induction h generalizing m with
  | none s =>
    subst hend
    cases h'
    exact Nat.le_refl 0
  | next hturn _ ih =>
    cases h' with
    | none => exact Nat.zero_le _
    | next hturn' hrest' =>
      rw [hturn] at hturn'
      cases hturn'
      exact Nat.succ_le_succ (ih hrest' hend)

/-! ## The recursion and the loop -/

theorem gather_map {α β γ : Type} (g : β → Except Fault (List γ)) (h : α → β) (as : List α) :
    gather g (as.map h) = gather (fun a => g (h a)) as := by
  induction as with
  | nil => rfl
  | cons a as ih => rw [List.map_cons, gather, gather, ih]

/-- The recursive search from a location. -/
def exploreFrom (f : Procedure) (fuel : Nat) (t : Pending) : Except Fault (List BasicPath) :=
  f.explore fuel t.location t.path t.memory

theorem exploreFrom_succ (f : Procedure) (fuel : Nat) (t : Pending) :
    f.exploreFrom (fuel + 1) t =
      f.turn t >>= fun r => gather (f.exploreFrom fuel) r.2 >>= fun rest => .ok (r.1 ++ rest) := by
  rw [exploreFrom, explore, turn]
  cases f.location t.location with
  | error e => rfl
  | ok l =>
    cases f.edges t.location with
    | error e => rfl
    | ok es =>
      simp only [bind, Except.bind, pure, Except.pure]
      split
      · split
        · rfl
        · dsimp only
          rw [gather_map]
          rfl
      · split
        · rfl
        · split
          · split
            · rfl
            · dsimp only
              rw [gather_map]
              rfl
          · dsimp only
            rw [gather_map]
            cases hrest : gather (fun x => f.exploreFrom fuel ⟨x.1.target,
              t.path.extend x.2 x.1.target, t.memory⟩) es.zipIdx with
            | error e => exact hrest
            | ok rest => exact hrest

theorem record_append (found paths later : List BasicPath) :
    record found (paths ++ later) = record (record found paths) later := by
  induction paths generalizing found with
  | nil => rfl
  | cons path paths ih => exact ih _

/-- What is recorded one by one is what is new, without repetitions. -/
theorem record_eq (found paths : List BasicPath) :
    record found paths = found ++ (distinct paths).filter (· ∉ found) := by
  induction paths generalizing found with
  | nil => simp [record, distinct]
  | cons path paths ih =>
    rw [record, ih, distinct]
    by_cases hin : path ∈ found
    · rw [if_pos hin, List.filter_cons_of_neg (by simpa using hin), List.filter_filter]
      congr 1
      refine List.filter_congr fun q _ => ?_
      have hne : q ∉ found → q ≠ path := by
        rintro hq rfl
        exact hq hin
      by_cases hq : q ∈ found
      · simp [hq]
      · simp [hq, hne hq]
    · rw [if_neg hin, List.filter_cons_of_pos (by simpa using hin), List.append_assoc,
        List.singleton_append, List.filter_filter]
      congr 2
      refine List.filter_congr fun q _ => ?_
      simp [Bool.and_comm]

/-- While the recursion searches from locations, from the last to the first, the loop takes them
from the top of its stack. -/
theorem turns_of_gather {f : Procedure} {fuel : Nat}
    (h : ∀ (t : Pending) (out : List BasicPath), f.exploreFrom fuel t = .ok out →
      ∀ stack found, ∃ n, f.Turns n ⟨t :: stack, found⟩ ⟨stack, record found out⟩)
    {ts : List Pending} {out : List BasicPath} (hout : gather (f.exploreFrom fuel) ts = .ok out)
    (stack : List Pending) (found : List BasicPath) :
    ∃ n, f.Turns n ⟨ts.reverse ++ stack, found⟩ ⟨stack, record found out⟩ := by
  induction ts generalizing out stack with
  | nil =>
    cases hout
    exact ⟨0, .none _⟩
  | cons t ts ih =>
    rw [gather, bind_eq_ok] at hout
    obtain ⟨later, hlater, hout⟩ := hout
    obtain ⟨first, hfirst, hout⟩ := bind_eq_ok.1 hout
    cases hout
    obtain ⟨m, hm⟩ := ih hlater (t :: stack)
    obtain ⟨n, hn⟩ := h t first hfirst stack (record found later)
    rw [List.reverse_cons, List.append_assoc, List.singleton_append, record_append]
    exact ⟨m + n, hm.trans hn⟩

/-- The loop gets through with what the recursion has searched. -/
theorem turns_of_explore {f : Procedure} {fuel : Nat} {t : Pending} {out : List BasicPath}
    (h : f.exploreFrom fuel t = .ok out) (stack : List Pending) (found : List BasicPath) :
    ∃ n, f.Turns n ⟨t :: stack, found⟩ ⟨stack, record found out⟩ := by
  induction fuel generalizing t out stack found with
  | zero => cases h
  | succ fuel ih =>
    rw [exploreFrom_succ, bind_eq_ok] at h
    obtain ⟨⟨closed, next⟩, hturn, h⟩ := h
    obtain ⟨rest, hrest, h⟩ := bind_eq_ok.1 h
    cases h
    obtain ⟨n, hn⟩ := turns_of_gather (fun u out hu => ih hu) hrest stack (record found closed)
    rw [record_append]
    exact ⟨n + 1, .next hturn hn⟩

end Procedure

/-- **The search ends**: in a validated program, whatever loops, call sites and edges to the entry
or out of the exit a procedure has, the loop over a stack empties it after finitely many turns,
without a fault and with no way to take more. What it has found then are the basic paths. -/
theorem stack_search_ends {p : Program} (hp : p.validate = .ok ()) {f : Procedure}
    (hf : f ∈ p.procedures) :
    ∃ n found, f.Turns n f.agenda ⟨[], found⟩ ∧ f.basicPaths = .ok found ∧
      ∀ m s, f.Turns m f.agenda s → m ≤ n := by
  obtain ⟨paths, hpaths⟩ := (Program.wellFormed_of_validate hp f hf).exists_basicPaths
  obtain ⟨out, hout, h⟩ := bind_eq_ok.1 hpaths
  cases h
  obtain ⟨n, hn⟩ := Procedure.turns_of_explore (t := ⟨f.entry, ⟨f.entry, []⟩, []⟩) hout [] []
  have hrecord : Procedure.record [] out = distinct out := by
    rw [Procedure.record_eq, List.nil_append]
    exact List.filter_eq_self.2 fun _ _ => by simp
  rw [hrecord] at hn
  exact ⟨n, _, hn, hpaths, fun m s hm => hn.le hm⟩

theorem stack_search_ends_nested :
    Nested.program.validate = .ok () ∧
    ∃ n found, Nested.nested.Turns n Nested.nested.agenda ⟨[], found⟩ ∧
      Nested.nested.basicPaths = .ok found ∧
      ∀ m s, Nested.nested.Turns m Nested.nested.agenda s → m ≤ n :=
  ⟨rfl, stack_search_ends (p := Nested.program) rfl (List.mem_cons_of_mem _ List.mem_cons_self)⟩

end Cutpoint
