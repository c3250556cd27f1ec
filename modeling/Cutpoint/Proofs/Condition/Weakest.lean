import Cutpoint.Proofs.Condition.Context
import Cutpoint.Proofs.Condition.Naming

/-!
# Weakest preconditions are exact

The condition that `PathContext.weakest` gives is true in a state exactly if every execution of the
statements from there ends, without a failed assertion, in a state where the postcondition holds.

* `PathContext.weakestAll_plain`: for statements that are no calls;
* `PathContext.weakestCall_gives`, `PathContext.bindResults_gives`: what is computed for a call;
* `PathContext.weakest_gives`: for the statements of a path, of which only the first may be a call.
  The results of the call have new names, and the condition is true for all their values exactly if
  every execution ends well.
-/

set_option autoImplicit false

namespace Cutpoint

namespace PathContext

/-! ## Statements that are no calls -/

/-- An expression for a variable of the scope: the formula is true where the variable has the value
of the expression. -/
theorem subst_single {S : List Var} (hS : OneType S) {post : Expr} (hscope : post.Scoped)
    (hfree : ∀ v ∈ post.free, v ∈ S) {v : Var} {e : Expr} (hv : v ∈ S) (he : e.Scoped)
    (hes : ∀ u ∈ e.free, u ∈ S) :
    (post.subst [(v, e)]).Scoped ∧ (∀ u ∈ (post.subst [(v, e)]).free, u ∈ S) ∧
      ∀ (I : Interp) (σ : State), I.Holds σ (post.subst [(v, e)]) ↔
        I.Holds (σ.bind [v] [I.value σ e]) post := by
  have hcases : ∀ u : Var, Subst.image [(v, e)] u = e ∨ Subst.image [(v, e)] u = .var u := by
    intro u
    by_cases h : v = u <;> simp [Subst.image, Subst.find?_cons, h]
  refine ⟨hscope.subst fun u _ => ?_, fun u hu => ?_,
    fun I σ => Interp.holds_subst hscope fun u hu => ?_⟩
  · rcases hcases u with h | h
    · rw [h]
      exact he
    · rw [h]
      trivial
  · obtain ⟨x, hx, hu⟩ := (Expr.mem_free_subst _ hscope).1 hu
    rcases hcases x with h | h
    · rw [h] at hu
      exact hes u hu
    · rw [h, Expr.mem_free_var] at hu
      exact hu ▸ hfree x hx
  · by_cases h : v = u
    · simp [Subst.image, Subst.find?_cons, NameMap.bind, h]
    · have hname : v.name ≠ u.name := fun hn => h (hS v hv u (hfree u hu) hn)
      simp [Subst.image, Subst.find?_cons, NameMap.bind, h, hname]

/-- The condition before a statement is true exactly if the statement ends well. -/
theorem weakestStep_plain (c : PathContext) {S : List Var} (hS : OneType S) {s : Statement}
    (hplain : s.isCall = false) (hscoped : s.Scoped) (hs : ∀ v ∈ s.free, v ∈ S) {post : Expr}
    (hscope : post.Scoped) (hfree : ∀ v ∈ post.free, v ∈ S) :
    ∃ w, (∀ N, Naming.Gives (c.weakestStep s post) N w N) ∧ w.Scoped ∧ (∀ v ∈ w.free, v ∈ S) ∧
      ∀ I σ, I.Holds σ w ↔ ∀ o, s.Runs I σ o → o.Meets fun τ => I.Holds τ post := by
  cases s with
  | assign v e =>
    obtain ⟨h₁, h₂, h₃⟩ := subst_single hS hscope hfree (hs v List.mem_cons_self) hscoped
      fun u hu => hs u (List.mem_cons_of_mem _ hu)
    refine ⟨_, fun N => rfl, h₁, h₂,
      fun I σ => (h₃ I σ).trans ⟨fun h o ho => ?_, fun h => h _ (.assign v e σ)⟩⟩
    cases ho
    exact h
  | assignAt a i e =>
    have ha := hs a List.mem_cons_self
    have hi : ∀ u ∈ i.free, u ∈ S :=
      fun u hu => hs u (List.mem_cons_of_mem _ (List.mem_append_left _ hu))
    have he : ∀ u ∈ e.free, u ∈ S :=
      fun u hu => hs u (List.mem_cons_of_mem _ (List.mem_append_right _ hu))
    obtain ⟨h₁, h₂, h₃⟩ := subst_single hS hscope hfree
      (e := .update (.var a) i e (.length (.var a))) ha ⟨trivial, hscoped.1, hscoped.2, trivial⟩ (by
        intro u hu
        simp only [Expr.mem_free_update, Expr.mem_free_var, Expr.mem_free_length] at hu
        rcases hu with rfl | hu | hu | rfl
        · exact ha
        · exact hi u hu
        · exact he u hu
        · exact ha)
    refine ⟨_, fun N => rfl, h₁, h₂,
      fun I σ => (h₃ I σ).trans ⟨fun h o ho => ?_, fun h => h _ (.assignAt a i e σ)⟩⟩
    cases ho
    exact h
  | assume e =>
    refine ⟨.implies e post, fun N => rfl, ⟨hscoped, hscope⟩, fun v hv => ?_, fun I σ => ?_⟩
    · rcases (Expr.mem_free_binary _ _ _).1 hv with h | h
      · exact hs v h
      · exact hfree v h
    · rw [Interp.holds_implies]
      refine ⟨fun h o ho => ?_, fun h he => h _ (.assume he)⟩
      cases ho with
      | assume he => exact h he
  | assert e =>
    refine ⟨.and post e, fun N => rfl, ⟨hscope, hscoped⟩, fun v hv => ?_, fun I σ => ?_⟩
    · rcases (Expr.mem_free_binary _ _ _).1 hv with h | h
      · exact hfree v h
      · exact hs v h
    · rw [Interp.holds_and]
      refine ⟨fun h o ho => ?_, fun h => ?_⟩
      · cases ho with
        | assert _ => exact h.1
        | fail he => exact absurd h.2 he
      · by_cases he : I.Holds σ e
        · exact ⟨h _ (.assert he), he⟩
        · exact (h _ (.fail he)).elim
  | call lhs name args => cases hplain

/-- The condition before statements that are no calls is true exactly if every execution ends
well. -/
theorem weakestAll_plain (c : PathContext) {S : List Var} (hS : OneType S) {ss : List Statement}
    (hplain : ∀ s ∈ ss, s.isCall = false) (hss : ∀ s ∈ ss, s.Scoped ∧ ∀ v ∈ s.free, v ∈ S)
    {post : Expr} (hscope : post.Scoped) (hfree : ∀ v ∈ post.free, v ∈ S) :
    ∃ w, (∀ N, Naming.Gives (c.weakestAll ss post) N w N) ∧ w.Scoped ∧ (∀ v ∈ w.free, v ∈ S) ∧
      ∀ I σ, I.Holds σ w ↔ ∀ o, c.program.Executes I ss σ o → o.Meets fun τ => I.Holds τ post := by
  induction ss with
  | nil =>
    refine ⟨post, fun N => rfl, hscope, hfree, fun I σ => ⟨fun h o ho => ?_, fun h => h _ (.nil σ)⟩⟩
    cases ho
    exact h
  | cons s ss ih =>
    obtain ⟨w, hw, hws, hwf, hwh⟩ := ih (fun t ht => hplain t (List.mem_cons_of_mem _ ht))
      (fun t ht => hss t (List.mem_cons_of_mem _ ht))
    obtain ⟨u, hu, hus, huf, huh⟩ := c.weakestStep_plain hS (hplain s List.mem_cons_self)
      (hss s List.mem_cons_self).1 (hss s List.mem_cons_self).2 hws hwf
    refine ⟨u, fun N => (hw N).bind (hu N), hus, huf,
      fun I σ => (huh I σ).trans ⟨fun h o ho => ?_, fun h o ho => ?_⟩⟩
    · cases ho with
      | step hs ho => exact (hwh I _).1 (h _ hs) o ho
      | fail hs => exact h _ hs
      | call hg hds ho => exact absurd (hplain _ List.mem_cons_self) (by simp [Statement.isCall])
    · cases o with
      | done τ => exact (hwh I τ).2 fun o' ho' => h o' (.step ho ho')
      | failed => exact h _ (.fail ho)

end PathContext

namespace PathContext

/-! ## Calls -/

/-- Every result gets a new variable of its sort, which stands for it in the callee's conditions and
for the variable that is assigned. -/
theorem bindResults_gives (binding assigned : Subst) (rs lhs : List Var) (N : Names)
    (hty : lhs = [] ∨ lhs.map Var.ty = rs.map Var.ty) :
    ∃ ws b a N', Naming.Gives (bindResults binding assigned rs lhs) N (b, a) N' ∧
      Naming.New ws N N' ∧
      ws.map Var.ty = rs.map Var.ty ∧
      (∀ v : Var, (∀ r ∈ rs, r.name = v.name → r = v) →
        b.find? v = (Var.lookup rs (ws.map .var) v.name).or (binding.find? v)) ∧
      ∀ v : Var, (∀ x ∈ lhs, x.name = v.name → x = v) →
        a.find? v = (Var.lookup lhs (ws.map .var) v.name).or (assigned.find? v) := by
  -- one more pair comes before those that follow
  have one : ∀ {r v : Var} (s : Subst) (e : Expr) (o : Option Expr), (r.name = v.name → r = v) →
      o.or ((s.insert r e).find? v) =
      (o.or (if r.name = v.name then some e else none)).or (s.find? v) := by
    intro r v s e o hr
    have hiff : r.name = v.name ↔ r = v := ⟨hr, fun h => by rw [h]⟩
    rw [Subst.find?_insert, Option.or_assoc]
    by_cases h : r = v <;> simp [h, hiff]
  induction rs generalizing lhs binding assigned N with
  | nil =>
    have hlhs : lhs = [] := by simpa using hty
    subst hlhs
    exact ⟨[], binding, assigned, N, rfl, .nil fun _ h => h, rfl, by simp, by simp⟩
  | cons r rs ih =>
    cases lhs with
    | nil =>
      obtain ⟨ws, b, a, N', hgives, hnew, hws, hb, ha⟩ :=
        ih (binding.insert r (.var (r.fresh N))) assigned [] ((r.fresh N).name :: N) (Or.inl rfl)
      refine ⟨r.fresh N :: ws, b, a, N', (Naming.gives_fresh r N).bind hgives,
        hnew.cons r, by simp [hws],
        fun v hv => ?_, fun v hv => by rw [ha v hv, Var.lookup_nil, Var.lookup_nil]⟩
      rw [hb v fun x hx => hv x (List.mem_cons_of_mem _ hx), List.map_cons, Var.lookup_cons,
        one _ _ _ (hv r List.mem_cons_self)]
    | cons x lhs =>
      have hty' : x.ty = r.ty ∧ lhs.map Var.ty = rs.map Var.ty := by simpa using hty
      obtain ⟨ws, b, a, N', hgives, hnew, hws, hb, ha⟩ := ih (binding.insert r (.var (x.fresh N)))
        (assigned.insert x (.var (x.fresh N))) lhs ((x.fresh N).name :: N) (Or.inr hty'.2)
      refine ⟨x.fresh N :: ws, b, a, N', (Naming.gives_fresh x N).bind hgives,
        hnew.cons x, by simp [hws, hty'.1],
        fun v hv => ?_, fun v hv => ?_⟩
      · rw [hb v fun y hy => hv y (List.mem_cons_of_mem _ hy), List.map_cons, Var.lookup_cons,
          one _ _ _ (hv r List.mem_cons_self)]
      · rw [ha v fun y hy => hv y (List.mem_cons_of_mem _ hy), List.map_cons, Var.lookup_cons,
          one _ _ _ (hv x List.mem_cons_self)]

/-- What a call assumes of its results, which `ws` stand for: the exit conditions with the arguments
for the parameters. -/
theorem holds_assumption {g : Procedure} {cs : List Expr} {args ws : List Var}
    {b : Subst} (hlen : args.length = g.parameters.length)
    (hlenws : ws.length = g.results.length) (hexit : (Expr.conj cs).Scoped)
    (hbinding : ∀ v ∈ (Expr.conj cs).free, b.Renames g.results ws g.parameters args v)
    (hnodup : (Var.names ws).Nodup) (hnewExit : ∀ v ∈ (Expr.conj cs).free, v.name ∉ Var.names ws)
    (hnewArgs : ∀ v ∈ args, v.name ∉ Var.names ws) {I : Interp} {σ : State} {ds : List Datum}
    (hds : Var.Typed ws ds) :
    I.Holds (σ.bind ws ds) ((Expr.conj cs).subst b) ↔
      ∀ e ∈ cs, I.Holds ((σ.bind g.parameters (σ.get args)).bind g.results ds) e := by
  have hget : (σ.bind ws ds).get ws = ds := NameMap.get_bind hnodup hds.length
  have hgetArgs : (σ.bind ws ds).get args = σ.get args :=
    List.map_congr_left fun v hv => NameMap.bind_of_not_mem (hnewArgs v hv)
  rw [Interp.holds_subst_renames hexit hbinding, hget, hgetArgs, ← Interp.holds_conj]
  exact Interp.holds_congr fun v hv =>
    NameMap.bind_congr (Nat.le_of_eq (hds.length.trans hlenws).symm) fun _ =>
    NameMap.bind_congr (Nat.le_of_eq (by rw [NameMap.get_length, hlen])) fun _ =>
      NameMap.bind_of_not_mem (hnewExit v hv)

section Call
variable {g : Procedure} {cs : List Expr} {post : Expr} {lhs args ws : List Var} {a b : Subst}
  (hlen : args.length = g.parameters.length) (hlenws : ws.length = g.results.length)
  (hlenlhs : lhs.length ≤ ws.length) (hexit : (Expr.conj cs).Scoped)
  (hbinding : ∀ v ∈ (Expr.conj cs).free, b.Renames g.results ws g.parameters args v)
  (hscope : post.Scoped) (hassigned : ∀ v ∈ post.free, a.Renames lhs ws [] [] v)
include hlen hlenws hlenlhs hexit hbinding hscope hassigned

/-- Where `ws` stand for the results: the exit conditions with them imply the condition after the
call with them. -/
theorem holds_call (hnodup : (Var.names ws).Nodup)
    (hnewExit : ∀ v ∈ (Expr.conj cs).free, v.name ∉ Var.names ws)
    (hnewPost : ∀ v ∈ post.free, v.name ∉ Var.names ws)
    (hnewArgs : ∀ v ∈ args, v.name ∉ Var.names ws) {I : Interp} {σ : State} {ds : List Datum}
    (hds : Var.Typed ws ds) :
    I.Holds (σ.bind ws ds) (.implies ((Expr.conj cs).subst b) (post.subst a)) ↔
      ((∀ e ∈ cs, I.Holds ((σ.bind g.parameters (σ.get args)).bind g.results ds) e) →
        I.Holds (σ.bind lhs ds) post) := by
  have hget : (σ.bind ws ds).get ws = ds := NameMap.get_bind hnodup hds.length
  rw [Interp.holds_implies,
    holds_assumption hlen hlenws hexit hbinding hnodup hnewExit hnewArgs hds,
    Interp.holds_subst_renames hscope hassigned, hget, NameMap.bind_nil]
  refine imp_congr_right fun _ => Interp.holds_congr fun v hv => ?_
  exact NameMap.bind_congr (by rw [hds.length]; exact hlenlhs) fun _ =>
    NameMap.bind_of_not_mem (hnewPost v hv)

/-- The condition of a call is about the new names, the arguments, and what is not formal. -/
theorem mem_free_call {v : Var}
    (hv : v ∈ (Expr.implies ((Expr.conj cs).subst b) (post.subst a)).free) :
    v ∈ ws ∨ v ∈ args ∨
    (v ∈ (Expr.conj cs).free ∧ v ∉ g.parameters ++ g.results) ∨ v ∈ post.free := by
  rcases (Expr.mem_free_binary _ _ _).1 hv with hv | hv
  · rcases Expr.mem_free_subst_renames hexit hbinding (Nat.le_of_eq hlenws.symm)
      (Nat.le_of_eq hlen.symm) hv with h | h | ⟨h, hr, hp⟩
    · exact Or.inl h
    · exact Or.inr (Or.inl h)
    · refine Or.inr (Or.inr (Or.inl ⟨h, fun hm => ?_⟩))
      exact (List.mem_append.1 hm).elim (fun hm => hp (name_mem_names hm)) fun hm =>
        hr (name_mem_names hm)
  · rcases Expr.mem_free_subst_renames hscope hassigned hlenlhs (Nat.le_refl _) hv with
      h | h | ⟨h, -⟩
    · exact Or.inl h
    · exact absurd h List.not_mem_nil
    · exact Or.inr (Or.inr (Or.inr h))

end Call

/-- The condition before a call: new variables, named like no variable of the two conditions, stand
for the results, both in the exit conditions, where the arguments stand for the parameters, and in
the condition after the call. -/
theorem weakestCall_form (c : PathContext) {S lhs args : List Var} {name : String} {g : Procedure}
    (hg : c.callee lhs name args = .ok g) (hcontract : g.ContractIn S) {cs : List Expr}
    (hcs : g.exitConditions = .ok cs) (hty : lhs = [] ∨ lhs.map Var.ty = g.results.map Var.ty)
    (post : Expr) (N : Names) :
    ∃ ws a b N', Naming.Gives (c.weakestCall lhs name args post) N
      (.implies ((Expr.conj cs).subst b) (post.subst a)) N' ∧ Naming.New ws N N' ∧
      ws.map Var.ty = g.results.map Var.ty ∧ (∀ v ∈ (Expr.conj cs).free, v.name ∉ Var.names ws) ∧
      (∀ v ∈ post.free, v.name ∉ Var.names ws) ∧
      (∀ v ∈ (Expr.conj cs).free, b.Renames g.results ws g.parameters args v) ∧
      ∀ v : Var, (∀ x ∈ lhs, x.name = v.name → x = v) → a.Renames lhs ws [] [] v := by
  obtain ⟨ws, b, a, N', hgives, hnew, hws, hb, ha⟩ := bindResults_gives
    (g.binding args) [] g.results lhs (post.freeNames ++ ((Expr.conj cs).freeNames ++ N)) hty
  have hexit := Expr.ScopedIn.conj (hcontract.exit cs hcs)
  have hlen := (Procedure.checkCall_eq_ok.1 (callee_eq_ok.1 hg).2).1
  refine ⟨ws, a, b, N', ?_, ?_, hws, fun v hv h => ?_, fun v hv h => ?_, fun v hv => ?_,
    fun v hv => ?_⟩
  · exact (Naming.gives_ofExcept hg N).bind ((Naming.gives_ofExcept hcs N).bind
      ((Naming.gives_reserve _ _).bind ((Naming.gives_reserve _ _).bind (hgives.bind rfl))))
  · exact hnew.mono (fun x hx => List.mem_append_right _ (List.mem_append_right _ hx))
      fun _ hx => hx
  · exact hnew.not_mem _ h
      (List.mem_append_right _ (List.mem_append_left _ (Expr.mem_freeNames.2 ⟨v, hv, rfl⟩)))
  · exact hnew.not_mem _ h (List.mem_append_left _ (Expr.mem_freeNames.2 ⟨v, hv, rfl⟩))
  · rw [Subst.Renames,
      hb v fun r hr => hexit.eq_of_name hcontract.oneType hv (List.mem_append_right _ hr),
      Procedure.binding, Subst.find?_ofPairs (by simpa using hlen)
        fun r hr => hexit.eq_of_name hcontract.oneType hv (List.mem_append_left _ hr)]
  · rw [Subst.Renames, ha v hv]
    rfl

/-- What a call assumes says, with values `ds` for the new names of the results, that the callee's
exit conditions hold of them and of the values of the arguments. -/
theorem weakestCall_assumes (c : PathContext) {S lhs args : List Var} {name : String}
    {g : Procedure} (hg : c.callee lhs name args = .ok g) (hcontract : g.ContractIn S)
    {cs : List Expr} (hcs : g.exitConditions = .ok cs)
    (hty : lhs = [] ∨ lhs.map Var.ty = g.results.map Var.ty) (post : Expr) {N : Names}
    (hN : ∀ v ∈ args, v.name ∈ N) :
    ∃ assumption rest ws N', Naming.Gives (c.weakestCall lhs name args post) N
      (.implies assumption rest) N' ∧
      Naming.New ws N N' ∧ ws.map Var.ty = g.results.map Var.ty ∧
      ∀ (I : Interp) (σ : State) (ds : List Datum), Var.Typed ws ds →
        (I.Holds (σ.bind ws ds) assumption ↔
        ∀ e ∈ cs, I.Holds ((σ.bind g.parameters (σ.get args)).bind g.results ds) e) := by
  obtain ⟨ws, a, b, N', hgives, hnew, hws, hnewExit, -, hbinding, -⟩ :=
    c.weakestCall_form hg hcontract hcs hty post N
  have hlen := (Procedure.checkCall_eq_ok.1 (callee_eq_ok.1 hg).2).1
  have hlenws : ws.length = g.results.length := by simpa using congrArg List.length hws
  have hexit := Expr.ScopedIn.conj (hcontract.exit cs hcs)
  exact ⟨_, _, ws, N', hgives, hnew, hws, fun I σ ds hds => holds_assumption hlen hlenws hexit.1
    hbinding hnew.nodup hnewExit (fun v hv h => hnew.not_mem _ h (hN v hv)) hds⟩

/-- The condition before a call is true, with values `ds` for the new names of the results, exactly
if the postcondition holds with these results as soon as the callee's contract allows them. -/
theorem weakestCall_gives (c : PathContext) {S lhs args : List Var} (hS : OneType S) {name : String}
    {g : Procedure} (hg : c.callee lhs name args = .ok g) (hcontract : g.ContractIn S)
    {cs : List Expr} (hcs : g.exitConditions = .ok cs) (hlhs : ∀ v ∈ lhs, v ∈ S)
    (hargs : ∀ v ∈ args, v ∈ S) (hlen : args.length = g.parameters.length)
    (hty : lhs = [] ∨ lhs.map Var.ty = g.results.map Var.ty) {post : Expr} (hscope : post.Scoped)
    (hfree : ∀ v ∈ post.free, v ∈ S) {N : Names} (hN : ∀ v ∈ args, v.name ∈ N) :
    ∃ w ws N', Naming.Gives (c.weakestCall lhs name args post) N w N' ∧ Naming.New ws N N' ∧
      ws.map Var.ty = g.results.map Var.ty ∧ w.Scoped ∧
      (∀ v ∈ w.free, v ∈ ws ∨ (v ∈ S ∧ v.name ∉ Var.names ws)) ∧
      ∀ (I : Interp) (σ : State) (ds : List Datum), Var.Typed ws ds → (I.Holds (σ.bind ws ds) w ↔
        ((∀ e ∈ cs, I.Holds ((σ.bind g.parameters (σ.get args)).bind g.results ds) e) →
          I.Holds (σ.bind lhs ds) post)) := by
  obtain ⟨ws, a, b, N', hgives, hnew, hws, hnewExit, hnewPost, hbinding, ha⟩ :=
    c.weakestCall_form hg hcontract hcs hty post N
  have hexit := Expr.ScopedIn.conj (hcontract.exit cs hcs)
  have hnewArgs : ∀ v ∈ args, v.name ∉ Var.names ws := fun v hv h => hnew.not_mem _ h (hN v hv)
  have hassigned : ∀ v ∈ post.free, a.Renames lhs ws [] [] v := fun v hv =>
    ha v fun x hx hn => hS x (hlhs x hx) v (hfree v hv) hn
  have hlenws : ws.length = g.results.length := by simpa using congrArg List.length hws
  have hlenlhs : lhs.length ≤ ws.length := by
    rcases hty with rfl | h
    · exact Nat.zero_le _
    · have := congrArg List.length h
      simp only [List.length_map] at this
      omega
  refine ⟨.implies ((Expr.conj cs).subst b) (post.subst a), ws, N', hgives, hnew, hws,
    ⟨?_, ?_⟩, ?_, ?_⟩
  · exact hexit.1.subst_renames hbinding (Nat.le_of_eq hlenws.symm) (Nat.le_of_eq hlen.symm)
  · exact hscope.subst_renames hassigned hlenlhs (Nat.le_refl _)
  · intro v hv
    rcases mem_free_call hlen hlenws hlenlhs hexit.1 hbinding hscope hassigned hv with
      h | h | ⟨h, hformal⟩ | h
    · exact Or.inl h
    · exact Or.inr ⟨hargs v h, hnewArgs v h⟩
    · exact Or.inr ⟨((hexit.2 v h).resolve_left hformal).1, hnewExit v h⟩
    · exact Or.inr ⟨hfree v h, hnewPost v h⟩
  · intro I σ ds hds
    exact holds_call hlen hlenws hlenlhs hexit.1 hbinding hscope hassigned hnew.nodup hnewExit
      hnewPost hnewArgs hds

/-- Where only the first statement may be a call, it is if one is. -/
theorem exists_call_cons {ss : List Statement} (htail : ∀ s ∈ ss.tail, s.isCall = false)
    (h : ¬ ∀ s ∈ ss, s.isCall = false) :
    ∃ lhs name args rest, ss = .call lhs name args :: rest := by
  cases ss with
  | nil => simp at h
  | cons s rest =>
    cases s with
    | call lhs name args => exact ⟨lhs, name, args, rest, rfl⟩
    | assign | assignAt | assume | assert => exact (h (List.forall_mem_cons.2 ⟨rfl, htail⟩)).elim

/-- The condition at the start of a path is true, whatever the new names of results stand for,
exactly if every execution of the path ends well. -/
theorem weakest_gives {c : PathContext} {S : List Var} (hc : c.Within S) {post : Expr}
    (hpost : post.ScopedIn [] S) {N : Names} (hN : ∀ s ∈ c.statements, ∀ x ∈ s.names, x ∈ N) :
    ∃ w ws N', Naming.Gives (c.weakest post) N w N' ∧ Naming.New ws N N' ∧ w.Scoped ∧
      (∀ v ∈ w.free, v ∈ ws ∨ (v ∈ S ∧ v.name ∉ Var.names ws)) ∧
      ∀ I σ, (∀ ds, Var.Typed ws ds → I.Holds (NameMap.bind σ ws ds) w) ↔
        ∀ o, c.program.Executes I c.statements σ o → o.Meets fun τ => I.Holds τ post := by
  obtain ⟨hS, hss, htail, hcalls⟩ := hc
  obtain ⟨hscope, hfree⟩ := Expr.scopedIn_nil.1 hpost
  by_cases hplain : ∀ s ∈ c.statements, s.isCall = false
  · obtain ⟨w, hw, hws, hwf, hwh⟩ := c.weakestAll_plain hS hplain hss hscope hfree
    refine ⟨w, [], _, (Naming.gives_reserve _ N).bind (hw _),
      .nil fun x hx => List.mem_append_right _ hx, hws,
      fun v hv => Or.inr ⟨hwf v hv, by simp [Var.names]⟩, fun I σ => ?_⟩
    rw [← hwh]
    exact ⟨fun h => by simpa using h [] rfl, fun h ds _ => by simpa using h⟩
  · obtain ⟨lhs, name, args, ss, hcons⟩ := exists_call_cons htail hplain
    rw [hcons] at hss htail hN
    rw [List.tail_cons] at htail
    obtain ⟨g, hg, ⟨cs, hcs⟩, hcontract, hty⟩ :=
      hcalls lhs name args (by rw [hcons]; exact List.mem_cons_self)
    obtain ⟨hprocedure, hcheck⟩ := callee_eq_ok.1 hg
    rw [List.forall_mem_cons] at hss hN
    obtain ⟨u, hu, hus, huf, huh⟩ := c.weakestAll_plain hS htail hss.2 hscope hfree
    obtain ⟨w, ws, N', hgives, hnew, hws, hscoped, hfree', hholds⟩ :=
      c.weakestCall_gives hS hg hcontract hcs (fun v hv => hss.1.2 v (List.mem_append_left _ hv))
      (fun v hv => hss.1.2 v (List.mem_append_right _ hv))
      (Procedure.checkCall_eq_ok.1 hcheck).1 hty hus huf (N := post.freeNames ++ N) fun v hv =>
        List.mem_append_right _ (hN.1 _ (List.mem_append_right _ (name_mem_names hv)))
    refine ⟨w, ws, N', (Naming.gives_reserve _ N).bind ?_, hnew.mono
      (fun x hx => List.mem_append_right _ hx) fun _ hx => hx, hscoped, hfree', fun I σ => ?_⟩
    · rw [hcons]
      exact (hu _).bind hgives
    · rw [hcons]
      have htyped : ∀ ds, Var.Typed ws ds ↔ Var.Typed g.results ds := Var.typedBy_congr hws
      constructor
      · intro h o ho
        cases ho with
        | step hs => cases hs
        | fail hs => cases hs
        | call hg' hds ho =>
          obtain ⟨hds, cs', hcs', hexit⟩ := hds
          rw [hprocedure] at hg'
          cases hg'
          rw [hcs] at hcs'
          cases hcs'
          exact (huh I _).1
            ((hholds I σ _ ((htyped _).2 hds)).1 (h _ ((htyped _).2 hds)) hexit) o ho
      · intro h ds hds
        exact (hholds I σ ds hds).2 fun hexit => (huh I _).2 fun o ho =>
          h o (.call hprocedure ⟨(htyped ds).1 hds, cs, hcs, hexit⟩ ho)

end PathContext

end Cutpoint
