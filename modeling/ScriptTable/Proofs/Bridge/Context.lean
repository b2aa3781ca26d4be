import Mathlib.Data.List.TakeWhile
import ScriptTable.Bridge
import ScriptTable.Proofs.Lift.Exact
import ScriptTable.Proofs.Table.History
import ScriptTable.Proofs.Table.Reachable

/-!
Named values written into an environment, and the same values as call arguments. Both lift one value
after another and stop at the first that is refused. What the environment was given before stays in
it; of the arguments nothing is left but the error.
-/

namespace ScriptTable

/-- The distinct elements beyond `old`, as a list grows at its end. -/
theorem eraseDups_removeAll_concat {α : Type} [BEq α] [LawfulBEq α] (l old : List α) (a : α) :
    old ++ ((l ++ [a]).removeAll old).eraseDups =
      if (old ++ (l.removeAll old).eraseDups).contains a then old ++ (l.removeAll old).eraseDups
      else old ++ (l.removeAll old).eraseDups ++ [a] := by
  by_cases stored : a ∈ old
  · simp [List.removeAll, stored]
  · have hremove : (l ++ [a]).removeAll old = l.removeAll old ++ [a] := by
      simp [List.removeAll, stored]
    have hcontains : (old ++ (l.removeAll old).eraseDups).contains a =
        (l.removeAll old).eraseDups.contains a := by
      simp [stored]
    rw [hremove, eraseDups_concat, hcontains]
    split <;> simp

/-- Keys that are stored keep their places, and new ones follow in the order of their first
occurrence. -/
theorem Ordered.WellFormed.keys_foldl_insert {K V : Type} [BEq K] [Hashable K] [LawfulBEq K]
    {p : Ordered K V} (wf : p.WellFormed) (es : List (K × V)) :
    (es.foldl (fun p e => p.insert e.1 e.2) p).WellFormed ∧
      (es.foldl (fun p e => p.insert e.1 e.2) p).keys.toList =
        p.keys.toList ++ ((es.map Prod.fst).removeAll p.keys.toList).eraseDups := by
  induction es using List.reverseRecOn with
  | nil => exact ⟨wf, by simp [List.removeAll]⟩
  | append_singleton es e ih =>
    obtain ⟨hwf, hkeys⟩ := ih
    rw [List.foldl_append, List.foldl_cons, List.foldl_nil]
    refine ⟨hwf.insert e.1 e.2, ?_⟩
    rw [hwf.keys_insert, hkeys, List.map_append, List.map_singleton, eraseDups_removeAll_concat]

/-- Named values written in turn. -/
def Table.withTexts (t : Table Value) (es : List (String × Value)) : Table Value :=
  es.foldl (fun t e => t.set (.text e.1) e.2) t

theorem Table.withTexts_cons (t : Table Value) (e : String × Value) (es : List (String × Value)) :
    t.withTexts (e :: es) = (t.set (.text e.1) e.2).withTexts es := rfl

theorem Table.withTexts_eq (t : Table Value) (es : List (String × Value)) :
    t.withTexts es = { t with texts := es.foldl (fun p e => p.insert e.1 e.2) t.texts } := by
  induction es generalizing t with
  | nil => rfl
  | cons e es ih => exact ih (t.set (.text e.1) e.2)

/-- They reach the partition of texts alone, where they keep the places of stored names. -/
theorem Table.WellFormed.withTexts_frame {t : Table Value} (wf : t.WellFormed)
    (es : List (String × Value)) :
    t.withTexts es = { t with texts := (t.withTexts es).texts } ∧
      (t.withTexts es).texts.keys.toList = t.texts.keys.toList ++
        ((es.map Prod.fst).removeAll t.texts.keys.toList).eraseDups := by
  rw [withTexts_eq]
  exact ⟨rfl, (wf.texts.keys_foldl_insert es).2⟩

namespace Bridge

variable {c : Config}

theorem convertArgs_cons (h : Host) (rest : List Host) (next : Identity) :
    convertArgs c (h :: rest) next = match h.liftValue c.maxDepth next with
      | .error e => .error e
      | .ok (v, next) => match convertArgs c rest next with
        | .error e => .error e
        | .ok (vs, next) => .ok (v :: vs, next) := by
  rw [convertArgs, Lift.bind_apply]
  rcases h.liftValue c.maxDepth next with e | ⟨v, next⟩
  · rfl
  · dsimp only
    rw [Lift.bind_apply]
    rcases convertArgs c rest next with e | ⟨vs, next⟩ <;> rfl

/-- Arguments that are all converted, the first apart. -/
theorem convertArgs_cons_ok {h : Host} {rest : List Host} {next m : Identity} {vs : List Value}
    (ok : convertArgs c (h :: rest) next = .ok (vs, m)) :
    ∃ v n ws, vs = v :: ws ∧ h.liftValue c.maxDepth next = .ok (v, n) ∧
      convertArgs c rest n = .ok (ws, m) := by
  rw [convertArgs_cons] at ok
  rcases hlift : h.liftValue c.maxDepth next with e | ⟨v, n⟩
  · rw [hlift] at ok
    cases ok
  · rw [hlift] at ok
    dsimp only at ok
    rcases hrest : convertArgs c rest n with e | ⟨ws, m'⟩
    · rw [hrest] at ok
      cases ok
    · rw [hrest] at ok
      cases ok
      exact ⟨v, n, ws, rfl, rfl, hrest⟩

/-- Arguments within the limit are converted one by one. -/
theorem convertArgs_within {hs : List Host} (within : ∀ h ∈ hs, h.depth ≤ c.maxDepth)
    (next : Identity) : ∃ vs m, convertArgs c hs next = .ok (vs, m) ∧
      List.Forall₂ (fun h v => ∃ n n', h.liftValue c.maxDepth n = .ok (v, n')) hs vs := by
  induction hs generalizing next with
  | nil => exact ⟨[], next, rfl, .nil⟩
  | cons h hs ih =>
    rw [List.forall_mem_cons] at within
    obtain ⟨v, n, -, hrun⟩ := h.liftValue_eq next
    have hlift := hrun c.maxDepth
    rw [if_pos within.1] at hlift
    obtain ⟨vs, m, hrest, hvalues⟩ := ih within.2 n
    refine ⟨v :: vs, m, ?_, .cons ⟨next, n, hlift⟩ hvalues⟩
    rw [convertArgs_cons, hlift]
    dsimp only
    rw [hrest]

/-- After arguments that are converted, conversion goes on with the others. -/
theorem convertArgs_append {hs : List Host} {next m : Identity} {vs : List Value}
    (converted : convertArgs c hs next = .ok (vs, m)) (rest : List Host) :
    convertArgs c (hs ++ rest) next = match convertArgs c rest m with
      | .error e => .error e
      | .ok (ws, n) => .ok (vs ++ ws, n) := by
  induction hs generalizing next vs with
  | nil =>
    cases converted
    rw [List.nil_append]
    rcases convertArgs c rest m with e | ⟨ws, n⟩ <;> rfl
  | cons h hs ih =>
    obtain ⟨v, n, vs, rfl, hlift, hrest⟩ := convertArgs_cons_ok converted
    rw [List.cons_append, convertArgs_cons, hlift]
    dsimp only
    rw [ih hrest]
    rcases convertArgs c rest m with e | ⟨ws, n⟩ <;> rfl

/-- After named values that are lifted and written, writing goes on with the others. -/
theorem putContext_append {p : List (String × Host)} {next m : Identity} {vs : List Value}
    (converted : convertArgs c (p.map Prod.snd) next = .ok (vs, m)) (env : Table Value)
    (rest : List (String × Host)) :
    putContext c env next (p ++ rest) =
      let w := putContext c (env.withTexts ((p.map Prod.fst).zip vs)) m rest
      { w with outcome := w.outcome.map (· + p.length) } := by
  induction p generalizing env next vs with
  | nil =>
    cases converted
    dsimp only
    rw [List.nil_append, List.map_nil, List.zip_nil_left, Table.withTexts, List.foldl_nil]
    rcases putContext c env m rest with ⟨env', n, e | k⟩ <;> rfl
  | cons e p ih =>
    obtain ⟨name, h⟩ := e
    obtain ⟨v, n, vs, rfl, hlift, hrest⟩ := convertArgs_cons_ok converted
    rw [List.cons_append, putContext, hlift]
    dsimp only
    rw [ih hrest, List.map_cons, List.zip_cons_cons, Table.withTexts_cons]
    rcases putContext c _ m rest with ⟨env', n', e | k⟩ <;> rfl

/-- The named values before the first that is refused. -/
def accepted (c : Config) (context : List (String × Host)) : List (String × Host) :=
  context.takeWhile fun e => decide (e.2.depth ≤ c.maxDepth)

theorem within_of_mem_accepted {context : List (String × Host)} {e : String × Host}
    (h : e ∈ accepted c context) : e.2.depth ≤ c.maxDepth := by
  have hdepth := List.mem_takeWhile_imp h
  exact of_decide_eq_true hdepth

/-- Either all named values are accepted, or one is refused after them, wherever the counter is. -/
theorem accepted_cases (c : Config) (context : List (String × Host)) :
    accepted c context = context ∨ ∃ name h rest, context = accepted c context ++ (name, h) :: rest ∧
      ∀ next, h.liftValue c.maxDepth next = .error (.depthExceeded c.maxDepth) := by
  have hsplit : accepted c context ++ context.dropWhile (fun e => decide (e.2.depth ≤ c.maxDepth)) =
      context := List.takeWhile_append_dropWhile
  cases hrest : context.dropWhile (fun e => decide (e.2.depth ≤ c.maxDepth)) with
  | nil =>
    rw [hrest, List.append_nil] at hsplit
    exact .inl hsplit
  | cons e rest =>
    obtain ⟨name, h⟩ := e
    refine .inr ⟨name, h, rest, by rw [← hrest, hsplit], fun next => ?_⟩
    have hhead := List.head?_dropWhile_not (fun e : String × Host => decide (e.2.depth ≤ c.maxDepth))
      context
    rw [hrest] at hhead
    obtain ⟨v, n, -, hrun⟩ := h.liftValue_eq next
    rw [hrun, if_neg (by simpa using hhead)]

theorem convertArgs_refused {hs : List Host} {next m : Identity} {vs : List Value} {h : Host}
    {e : BridgeError} (converted : convertArgs c hs next = .ok (vs, m))
    (refused : ∀ n, h.liftValue c.maxDepth n = .error e) (rest : List Host) :
    convertArgs c (hs ++ h :: rest) next = .error e := by
  rw [convertArgs_append converted, convertArgs_cons, refused]

theorem putContext_refused {p : List (String × Host)} {next m : Identity} {vs : List Value} {h : Host}
    {e : BridgeError} (converted : convertArgs c (p.map Prod.snd) next = .ok (vs, m))
    (refused : ∀ n, h.liftValue c.maxDepth n = .error e) (env : Table Value) (name : String)
    (rest : List (String × Host)) :
    putContext c env next (p ++ (name, h) :: rest) =
      ⟨env.withTexts ((p.map Prod.fst).zip vs), m, .error e⟩ := by
  rw [putContext_append converted, putContext, refused]
  rfl

theorem putContext_converted {p : List (String × Host)} {next m : Identity} {vs : List Value}
    (converted : convertArgs c (p.map Prod.snd) next = .ok (vs, m)) (env : Table Value) :
    putContext c env next p = ⟨env.withTexts ((p.map Prod.fst).zip vs), m, .ok p.length⟩ := by
  have hrun := putContext_append converted env []
  rw [List.append_nil] at hrun
  simp [hrun, putContext, Except.map]

/-- Named values are written up to the first that is refused: each of them as it is lifted, in turn,
under texts alone, where stored names keep their places and new ones follow in the order of their
first occurrence. If none is refused the answer counts them, with repetitions, and otherwise it is the
error of that one. As arguments the same values are all converted in the one case, to the values that
were written, and in the other the answer is the same error. -/
theorem putContext_accepted (c : Config) {env : Table Value} (reachable : env.Reachable)
    (context : List (String × Host)) (next : Identity) :
    let p := accepted c context
    let w := putContext c env next context
    ∃ vs, convertArgs c (p.map Prod.snd) next = .ok (vs, w.next) ∧
      List.Forall₂ (fun h v => ∃ n m, h.liftValue c.maxDepth n = .ok (v, m)) (p.map Prod.snd) vs ∧
      w.env = env.withTexts ((p.map Prod.fst).zip vs) ∧
      w.env = { env with texts := w.env.texts } ∧
      w.env.texts.keys.toList =
        env.texts.keys.toList ++ ((p.map Prod.fst).removeAll env.texts.keys.toList).eraseDups ∧
      (p = context ∧ w.outcome = .ok context.length ∧
          convertArgs c (context.map Prod.snd) next = .ok (vs, w.next) ∧
          vs.length = context.length ∨
        ∃ name h rest e, context = p ++ (name, h) :: rest ∧
          (∀ n, h.liftValue c.maxDepth n = .error e) ∧ w.outcome = .error e ∧
          convertArgs c (context.map Prod.snd) next = .error e) := by
  intro p w
  have hp : ∀ h ∈ p.map Prod.snd, h.depth ≤ c.maxDepth := by
    rw [List.forall_mem_map]
    exact fun e he => within_of_mem_accepted he
  obtain ⟨vs, m, hconverted, hvalues⟩ := convertArgs_within hp next
  have hlength : p.length = vs.length := by
    rw [← hvalues.length_eq, List.length_map]
  have hnames : ((p.map Prod.fst).zip vs).map Prod.fst = p.map Prod.fst :=
    List.map_fst_zip (by rw [List.length_map, hlength])
  obtain ⟨hothers, hkeys⟩ := reachable.wellFormed.withTexts_frame ((p.map Prod.fst).zip vs)
  rw [hnames] at hkeys
  rcases accepted_cases c context with hall | ⟨name, h, rest, hsplit, hrefused⟩
  · have hcontext : p = context := hall
    have hw : w = ⟨env.withTexts ((p.map Prod.fst).zip vs), m, .ok p.length⟩ := by
      rw [← putContext_converted hconverted env, hcontext]
    rw [hw]
    refine ⟨vs, hconverted, hvalues, rfl, hothers, hkeys, .inl ⟨hcontext, ?_, ?_, ?_⟩⟩
    · rw [hcontext]
    · rw [← hcontext, hconverted]
    · rw [← hcontext, hlength]
  · have hcontext : context = p ++ (name, h) :: rest := hsplit
    have hw : w = ⟨env.withTexts ((p.map Prod.fst).zip vs), m,
        .error (.depthExceeded c.maxDepth)⟩ := by
      rw [← putContext_refused hconverted hrefused env name rest, ← hcontext]
    rw [hw]
    refine ⟨vs, hconverted, hvalues, rfl, hothers, hkeys,
      .inr ⟨name, h, rest, _, hcontext, hrefused, rfl, ?_⟩⟩
    rw [hcontext, List.map_append, List.map_cons]
    exact convertArgs_refused hconverted hrefused _

/-- A name that is stored, a name twice, and a value too deep before the last. -/
theorem putContext_accepted_of_names :
    let env := ((Table.empty.set (.text "b") (.integer 1)).set (.integer 7) .none : Table Value)
    let context : List (String × Host) := [("a", .sequence [.integer 1]), ("b", .text "x"),
      ("a", .null), ("c", .sequence [.sequence []]), ("d", .null)]
    let w := putContext ⟨1⟩ env 4 context
    w.outcome = .error (.depthExceeded 1) ∧ w.env.texts.keys.toList = ["b", "a"] ∧
      w.env.integers = env.integers ∧
      convertArgs ⟨1⟩ (context.map Prod.snd) 4 = .error (.depthExceeded 1) := by
  intro env context w
  have reachable : env.Reachable :=
    (Table.Reachable.empty.set (.text "b") (.integer rfl)).set (.integer rfl) .none
  have hp : accepted ⟨1⟩ context =
      [("a", .sequence [.integer 1]), ("b", .text "x"), ("a", .null)] := rfl
  obtain ⟨vs, -, -, -, hothers, hkeys, hanswer⟩ := putContext_accepted ⟨1⟩ reachable context 4
  have hstored : env.texts.keys.toList = ["b"] := by
    simp [env, Table.set, Table.setKey, Value.toKey?, Table.empty, Ordered.empty, Ordered.insert]
  have hnames : w.env.texts.keys.toList = ["b", "a"] := by
    rw [hkeys, hp, hstored]
    decide
  rcases hanswer with ⟨hall, -⟩ | ⟨name, h, rest, e, hsplit, hrefused, houtcome, hargs⟩
  · rw [hp] at hall
    exact absurd (congrArg List.length hall) (by decide)
  · rw [hp] at hsplit
    obtain ⟨⟨rfl, rfl⟩, rfl⟩ : (name = "c" ∧ h = .sequence [.sequence []]) ∧
        rest = [("d", .null)] := by
      simpa [context, eq_comm] using hsplit
    cases hrefused 0
    exact ⟨houtcome, hnames, by rw [hothers], hargs⟩

end Bridge

end ScriptTable
