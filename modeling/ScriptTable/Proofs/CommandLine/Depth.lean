import ScriptTable.Proofs.CommandLine.Answer
import ScriptTable.Proofs.CommandLine.Flags
import ScriptTable.Proofs.Json.Accepted

/-!
A limit of 127 levels, one less than the default, is enough for every text that a parser accepts, if
the parser lets nothing through that is nested deeper. Within such a limit a document fails to load
only when its source cannot be read or is malformed.
-/

namespace ScriptTable

/-- A document is lifted within as many levels as it has, structured or taken apart. -/
theorem Host.lift_of_nesting_le {j : Json} {h : Host} (document : h.decompose = Host.ofJson j)
    {limit : Nat} (within : j.nesting ≤ limit) (next : Identity) :
    (∃ v next', h.liftValue limit next = .ok (v, next') ∧ v.forget = j.image) ∧
      (j.isComposite = true →
        ∃ t next', h.liftTable limit next = .ok (t, next') ∧ .table 0 t.forget = j.image) := by
  constructor
  · obtain ⟨v, next', hv, hlift⟩ := h.liftValue_eq next
    rw [depth_of_document document] at hlift
    rw [image_of_document document] at hv
    exact ⟨v, next', (hlift limit).trans (if_pos within), hv⟩
  · intro composite
    obtain ⟨t, next', htable, -, himage⟩ := lift_document document composite within next
    exact ⟨t, next', htable, himage⟩

namespace CommandLine

theorem takeDepth_of_not_mem (c : Config) {args : List String} (h : "--max-depth" ∉ args) :
    takeDepth c args = .ok (args, c) := by
  induction args with
  | nil => simp only [takeDepth]
  | cons arg rest ih =>
    rw [List.mem_cons, not_or] at h
    rw [takeDepth_other (Ne.symm h.1), ih h.2]
    rfl

/-- Without a flag the settings are those of the environment. -/
theorem config_of_view {args : List String} {env : Option String} (h : "--max-depth" ∉ args)
    {v : View} {path : String} {c : Config} (request : Request.ofArgs args env = .view v path c) :
    c = .ofEnvironment env := by
  have hargs : "--max-depth" ∉ args.filter (· ≠ "--trace") :=
    fun hmem => h (List.mem_of_mem_filter hmem)
  rw [Request.ofArgs, takeDepth_of_not_mem _ hargs] at request
  generalize args.filter (· ≠ "--trace") = rest at request
  cases rest with
  | nil => cases request
  | cons command rest =>
    dsimp only at request
    split at request
    · cases request
    · split at request <;> cases request
      rfl

/-- Whether the table was refused, and not its source. -/
def LoadError.isRefusal : LoadError → Bool
  | .refused _ => true
  | _ => false

theorem decodeText_error {path : String} {input : Except String ByteArray} {e : LoadError}
    (h : decodeText path input = .error e) : e.isRefusal = false := by
  unfold decodeText at h
  cases input with
  | error reason =>
    cases h
    rfl
  | ok bytes =>
    dsimp only at h
    split at h <;> cases h
    rfl

/-- The outcome tells of an error with this code. -/
def Outcome.Reports (o : Outcome) (code : String) : Prop :=
  ("Error: [" ++ code ++ "]").toList <+: o.stderr.toList

instance (o : Outcome) (code : String) : Decidable (o.Reports code) :=
  inferInstanceAs (Decidable (_ <+: _))

theorem not_reports {o : Outcome} (h : ¬"Error: [".toList <+: o.stderr.toList) (code : String) :
    ¬o.Reports code := by
  rw [Outcome.Reports, String.toList_append, String.toList_append, List.append_assoc]
  exact fun hp => h ((List.prefix_append _ _).trans hp)

theorem toList_lines (m : String) : (lines [m]).toList = m.toList ++ ['\n'] := by
  simp [lines, String.join]

theorem reports_refused (e : BridgeError) :
    (failure 1 ("Error: " ++ (LoadError.refused e).message)).Reports e.code := by
  change _ <+: (lines ["Error: " ++ ("[" ++ e.code ++ "] " ++ e.detail)]).toList
  simp [toList_lines]

theorem not_reports_load {e : LoadError} (h : e.isRefusal = false) (code : String) :
    ¬(failure 1 ("Error: " ++ e.message)).Reports code := by
  apply not_reports
  cases e with
  | unreadable what reason =>
    change ¬_ <+: (lines ["Error: " ++ ("failed to read " ++ what ++ ": " ++ reason)]).toList
    simp [toList_lines]
  | malformed path reason =>
    change ¬_ <+: (lines ["Error: " ++ ("invalid JSON in " ++ path ++ ": " ++ reason)]).toList
    simp [toList_lines]
  | refused e => cases h

section Bounded

variable {parse : Json.Parser} (bounded : ∀ text j, parse text = .ok j → j.nesting ≤ 127)
include bounded

/-- With enough levels only the source can be at fault. -/
theorem load_of_enough {c : Config} (enough : 127 ≤ c.maxDepth) (path : String)
    (input : Except String ByteArray) :
    (∃ e, load parse c path input = .error e ∧ e.isRefusal = false) ∨
      ∃ t, load parse c path input = .ok t ∧ t.WellFormed := by
  rw [load]
  cases htext : decodeText path input with
  | error e => exact .inl ⟨e, rfl, decodeText_error htext⟩
  | ok text =>
    change (∃ e, ((parse text).mapError (LoadError.malformed path) >>= _) = _ ∧ _) ∨
      ∃ t, ((parse text).mapError (LoadError.malformed path) >>= _) = _ ∧ _
    cases hparse : parse text with
    | error reason => exact .inl ⟨.malformed path reason, rfl, rfl⟩
    | ok j =>
      obtain ⟨t, inside, -, htable⟩ := tableOf_eq j
      have hload : tableOf c j = .ok t :=
        (htable c.maxDepth).trans (if_pos ((bounded text j hparse).trans enough))
      refine .inr ⟨t, ?_, inside t .self⟩
      change (tableOf c j).mapError LoadError.refused = .ok t
      rw [hload]
      rfl

/-- A request is answered without an error that has a code, when a view has enough levels. -/
theorem not_reports_answer (input : Except String ByteArray) (r : Request)
    (enough : ∀ v path c, r = .view v path c → 127 ≤ c.maxDepth) (code : String) :
    ¬(r.answer parse input).Reports code := by
  cases r with
  | help => exact not_reports (by simp [Request.answer]) code
  | badFlag e =>
    cases e <;>
      exact not_reports (by simp [Request.answer, failure, FlagError.message, toList_lines]) code
  | incomplete v => exact not_reports (by simp [Request.answer, failure, toList_lines]) code
  | unknown command => exact not_reports (by simp [Request.answer, toList_lines]) code
  | view v path c =>
    rw [Request.answer]
    rcases load_of_enough bounded (enough v path c rfl) path input with
      ⟨e, he, hsource⟩ | ⟨t, ht, wf⟩
    · rw [he]
      exact not_reports_load hsource code
    · rw [ht]
      dsimp only
      rw [v.print_eq wf]
      exact not_reports (by simp) code

end Bounded

/-- A parser that accepts no more than 127 levels, with any text: what it accepts is lifted at every
limit from there on, so a view is never refused its table, and a run at the default limit never
reports the depth. -/
theorem depth_never_reported {parse : Json.Parser}
    (bounded : ∀ text j, parse text = .ok j → j.nesting ≤ 127) :
    (∀ text j, parse text = .ok j → ∀ h : Host, h.decompose = Host.ofJson j →
      ∀ limit, 127 ≤ limit → ∀ next,
        (∃ v next', h.liftValue limit next = .ok (v, next') ∧ v.forget = j.image) ∧
          (j.isComposite = true →
            ∃ t next', h.liftTable limit next = .ok (t, next') ∧ .table 0 t.forget = j.image)) ∧
      (∀ c : Config, 127 ≤ c.maxDepth → ∀ path input e,
        load parse c path input ≠ .error (.refused e)) ∧
      ∀ (args : List String) (s : Surroundings), "--max-depth" ∉ args → s.depth = none →
        (∀ v path c, Request.ofArgs args s.depth = .view v path c → c.maxDepth = 128) ∧
          ∀ n, ¬(runWith parse args s).Reports (BridgeError.depthExceeded n).code := by
  refine ⟨?_, ?_, ?_⟩
  · intro text j parsed h document limit enough next
    exact Host.lift_of_nesting_le document ((bounded text j parsed).trans enough) next
  · intro c enough path input e he
    rcases load_of_enough bounded enough path input with ⟨e', he', hsource⟩ | ⟨t, ht, -⟩
    · cases he.symm.trans he'
      cases hsource
    · cases he.symm.trans ht
  · intro args s noflag noenv
    have hdefault : ∀ v path c,
        Request.ofArgs args s.depth = .view v path c → c.maxDepth = 128 := by
      intro v path c request
      rw [config_of_view noflag request, noenv]
      rfl
    refine ⟨hdefault, fun n => not_reports_answer bounded _ _ ?_ _⟩
    intro v path c request
    rw [hdefault v path c request]
    decide

/-- Brackets nested as deep as the reader goes, lifted at the least limit and at the default. -/
theorem depth_never_reported_of_brackets :
    let text := String.ofList (Json.brackets 126 [])
    let s : Surroundings := ⟨none, text.toUTF8, ⟨[], [], []⟩⟩
    (∀ text j, Json.parse text = .ok j → j.nesting ≤ 127) ∧
      Json.parse text = .ok (Json.nested 126) ∧ (Json.nested 126).nesting = 127 ∧
      (∃ v next', (Host.ofJson (Json.nested 126)).liftValue 127 0 = .ok (v, next') ∧
        v.forget = (Json.nested 126).image) ∧
      load Json.parse ⟨127⟩ "-" (.ok text.toUTF8) ≠ .error (.refused (.depthExceeded 127)) ∧
      ¬(run ["keys", "-"] s).Reports "E2005" := by
  intro text s
  have bounded : ∀ text j, Json.parse text = .ok j → j.nesting ≤ 127 :=
    fun _ _ parsed => (Json.regular_of_parse parsed).within
  have parsed : Json.parse text = .ok (Json.nested 126) := Json.parse_of_read (Json.read_brackets 126)
  obtain ⟨hlift, hload, hrun⟩ := depth_never_reported bounded
  exact ⟨bounded, parsed, Json.nesting_nested 126,
    (hlift text _ parsed _ (Json.decompose_ofJson _) 127 le_rfl 0).1,
    hload ⟨127⟩ le_rfl "-" _ _, (hrun ["keys", "-"] s (by decide) rfl).2 127⟩

/-- With fewer levels than the document has, every view reports the depth. -/
theorem reports_depth {parse : Json.Parser} {text : String} {j : Json} (parsed : parse text = .ok j)
    {limit : Nat} (beyond : limit < j.nesting) (v : View) (path : String) :
    ((Request.view v path ⟨limit⟩).answer parse (.ok text.toUTF8)).Reports
      (BridgeError.depthExceeded limit).code := by
  obtain ⟨t, -, -, htable⟩ := tableOf_eq j
  rw [Request.answer, load_toUTF8 _ path parsed, htable limit, if_neg (by omega)]
  exact reports_refused (.depthExceeded limit)

end CommandLine

end ScriptTable
