import ScriptTable.CommandLine
import ScriptTable.Proofs.Config.Depth

/-!
The scan of the arguments for depth flags, place by place. A flag takes the argument after it,
whatever that is, so what an argument is follows from the arguments before it. The recursion that
takes the flags out is compared with this.
-/

namespace ScriptTable.CommandLine

/-- The argument at this place is taken by the flag before it. -/
def valueAt (args : List String) : Nat → Bool
  | 0 => false
  | i + 1 => args[i]? == some "--max-depth" && !valueAt args i

/-- The argument at this place is a flag, and not the value of another one. -/
def flagAt (args : List String) (i : Nat) : Bool :=
  args[i]? == some "--max-depth" && !valueAt args i

theorem valueAt_succ (args : List String) (i : Nat) : valueAt args (i + 1) = flagAt args i := rfl

/-- The arguments that are neither flags nor taken by one, in their order. -/
def leftOver (args : List String) : List String :=
  (args.zipIdx.filter fun e => !flagAt args e.2 && !valueAt args e.2).map Prod.fst

/-- The flag at this place sets this depth. -/
def SetsDepth (args : List String) (i n : Nat) : Prop :=
  flagAt args i = true ∧ ∃ v, args[i + 1]? = some v ∧ Config.WritesDepth v.toList n

/-- There is a flag at this place without a value, or with one that is no depth. -/
def Faulty (args : List String) (i : Nat) : Prop :=
  flagAt args i = true ∧ ∀ v, args[i + 1]? = some v → ∀ n, ¬Config.WritesDepth v.toList n

/-- The depth of the last flag, or without a flag this one. -/
def Chosen (args : List String) (default n : Nat) : Prop :=
  (∃ i, SetsDepth args i n ∧ ∀ j, i < j → flagAt args j = false) ∨
    (∀ i, flagAt args i = false) ∧ n = default

theorem sublist_leftOver (args : List String) : (leftOver args).Sublist args := by
  have h := (List.filter_sublist (p := fun e => !flagAt args e.2 && !valueAt args e.2)
    (l := args.zipIdx)).map Prod.fst
  rwa [List.zipIdx_map_fst] at h

theorem not_mem_leftOver (args : List String) : "--max-depth" ∉ leftOver args := by
  intro h
  obtain ⟨⟨arg, i⟩, hmem, rfl⟩ := List.mem_map.mp h
  obtain ⟨hplace, hkept⟩ := List.mem_filter.mp hmem
  have harg := List.mk_mem_zipIdx_iff_getElem?.mp hplace
  simp [flagAt, harg] at hkept

/-- This is what is wrong with the first faulty flag. -/
def FirstFault (args : List String) (e : FlagError) : Prop :=
  ∃ i, Faulty args i ∧ (∀ j < i, ¬Faulty args j) ∧
    e = if args[i + 1]? = none then .noValue else .notADepth

/-- What a scan gives: all that is left over with the depth chosen, or the first fault. -/
def Scanned (args : List String) (default : Nat) : Except FlagError (List String × Config) → Prop
  | .ok (kept, c) =>
    kept = leftOver args ∧ (∀ i, ¬Faulty args i) ∧ Chosen args default c.maxDepth
  | .error e => FirstFault args e

section Shift

variable {args rest : List String} {k : Nat}
  (hfaulty : ∀ i, Faulty args i ↔ ∃ j, i = j + k ∧ Faulty rest j)
include hfaulty

theorem not_faulty_shift (h : ∀ i, ¬Faulty rest i) (i : Nat) : ¬Faulty args i := by
  intro hi
  obtain ⟨j, -, hj⟩ := (hfaulty i).mp hi
  exact h j hj

/-- The first fault of the arguments after some that are none. -/
theorem FirstFault.shift (hshift : ∀ i, args[i + k]? = rest[i]?) {e : FlagError}
    (h : FirstFault rest e) : FirstFault args e := by
  obtain ⟨i, hi, hfirst, he⟩ := h
  refine ⟨i + k, (hfaulty _).mpr ⟨i, rfl, hi⟩, fun j hj hfault => ?_, ?_⟩
  · obtain ⟨j, rfl, hrest⟩ := (hfaulty j).mp hfault
    exact hfirst j (by omega) hrest
  · rw [he, Nat.add_right_comm, hshift]

end Shift

section Other

variable {arg : String} (h : arg ≠ "--max-depth") (rest : List String)
include h

theorem valueAt_other (i : Nat) : valueAt (arg :: rest) (i + 1) = valueAt rest i := by
  induction i with
  | zero => simp [valueAt, h]
  | succ i ih => rw [valueAt, ih, valueAt, List.getElem?_cons_succ]

theorem flagAt_other_zero : flagAt (arg :: rest) 0 = false := by simp [flagAt, h]

theorem flagAt_other (i : Nat) : flagAt (arg :: rest) (i + 1) = flagAt rest i := by
  rw [flagAt, valueAt_other h, flagAt, List.getElem?_cons_succ]

theorem leftOver_other : leftOver (arg :: rest) = arg :: leftOver rest := by
  have hfirst : valueAt (arg :: rest) 0 = false := rfl
  rw [leftOver, List.zipIdx_cons,
    List.filter_cons_of_pos (by simp [flagAt_other_zero h, hfirst]), List.zipIdx_succ,
    List.filter_map, List.map_cons, List.map_map, leftOver]
  simp only [Function.comp_def, flagAt_other h, valueAt_other h]

theorem setsDepth_other (i n : Nat) :
    SetsDepth (arg :: rest) (i + 1) n ↔ SetsDepth rest i n := by
  rw [SetsDepth, flagAt_other h, List.getElem?_cons_succ, SetsDepth]

theorem faulty_other (i : Nat) : Faulty (arg :: rest) i ↔ ∃ j, i = j + 1 ∧ Faulty rest j := by
  cases i with
  | zero => simp [Faulty, flagAt_other_zero h]
  | succ i => simp [Faulty, flagAt_other h]

theorem Chosen.other {default n : Nat} (hn : Chosen rest default n) :
    Chosen (arg :: rest) default n := by
  rcases hn with ⟨i, hset, hlast⟩ | ⟨hnone, hn⟩
  · refine .inl ⟨i + 1, (setsDepth_other h rest i n).mpr hset, fun j hj => ?_⟩
    obtain ⟨j, rfl⟩ := Nat.exists_eq_add_one_of_ne_zero (n := j) (by omega)
    exact (flagAt_other h rest j).trans (hlast j (by omega))
  · refine .inr ⟨fun j => ?_, hn⟩
    cases j with
    | zero => exact flagAt_other_zero h rest
    | succ j => exact (flagAt_other h rest j).trans (hnone j)

theorem Scanned.other {default : Nat} {r : Except FlagError (List String × Config)}
    (hr : Scanned rest default r) :
    Scanned (arg :: rest) default ((fun (args, c) => (arg :: args, c)) <$> r) := by
  cases r with
  | ok p =>
    obtain ⟨hkept, hvalid, hchosen⟩ := hr
    exact ⟨by rw [leftOver_other h, ← hkept], not_faulty_shift (faulty_other h rest) hvalid,
      hchosen.other h⟩
  | error e => exact FirstFault.shift (faulty_other h rest) (fun _ => rfl) hr

theorem takeDepth_other (c : Config) :
    takeDepth c (arg :: rest) = (fun (args, c) => (arg :: args, c)) <$> takeDepth c rest := by
  rw [takeDepth.eq_def]
  exact if_neg h

end Other

section Pair

variable (v : String) (rest : List String)

theorem flagAt_zero : flagAt ("--max-depth" :: rest) 0 = true := by simp [flagAt, valueAt]

theorem valueAt_pair (i : Nat) :
    valueAt ("--max-depth" :: v :: rest) (i + 2) = valueAt rest i := by
  induction i with
  | zero => simp [valueAt]
  | succ i ih => rw [valueAt, ih, valueAt, List.getElem?_cons_succ, List.getElem?_cons_succ]

theorem flagAt_pair_one : flagAt ("--max-depth" :: v :: rest) 1 = false := by
  simp [flagAt, valueAt]

theorem flagAt_pair (i : Nat) : flagAt ("--max-depth" :: v :: rest) (i + 2) = flagAt rest i := by
  rw [flagAt, valueAt_pair, flagAt, List.getElem?_cons_succ, List.getElem?_cons_succ]

theorem leftOver_pair : leftOver ("--max-depth" :: v :: rest) = leftOver rest := by
  have hvalue := (valueAt_succ ("--max-depth" :: v :: rest) 0).trans (flagAt_zero (v :: rest))
  rw [leftOver, List.zipIdx_cons, List.filter_cons_of_neg (by simp [flagAt_zero]),
    List.zipIdx_cons, List.filter_cons_of_neg (by simp [hvalue]), List.zipIdx_succ,
    List.zipIdx_succ, List.map_map, List.filter_map, List.map_map, leftOver]
  simp only [Function.comp_def, flagAt_pair, valueAt_pair]

theorem setsDepth_pair_zero (n : Nat) :
    SetsDepth ("--max-depth" :: v :: rest) 0 n ↔ Config.WritesDepth v.toList n := by
  simp [SetsDepth, flagAt_zero]

theorem setsDepth_pair (i n : Nat) :
    SetsDepth ("--max-depth" :: v :: rest) (i + 2) n ↔ SetsDepth rest i n := by
  rw [SetsDepth, flagAt_pair, List.getElem?_cons_succ, List.getElem?_cons_succ, SetsDepth]

theorem faulty_pair_zero :
    Faulty ("--max-depth" :: v :: rest) 0 ↔ ∀ n, ¬Config.WritesDepth v.toList n := by
  simp [Faulty, flagAt_zero]

theorem faulty_pair {m : Nat} (hv : Config.WritesDepth v.toList m) (i : Nat) :
    Faulty ("--max-depth" :: v :: rest) i ↔ ∃ j, i = j + 2 ∧ Faulty rest j := by
  match i with
  | 0 => simp [faulty_pair_zero, show ∃ n, Config.WritesDepth v.toList n from ⟨m, hv⟩]
  | 1 => simp [Faulty, flagAt_pair_one]
  | i + 2 => simp [Faulty, flagAt_pair]

/-- The depth of the first flag is the default for the others. -/
theorem Chosen.pair {v rest} {m n : Nat} (hv : Config.WritesDepth v.toList m)
    (hn : Chosen rest m n) (default : Nat) : Chosen ("--max-depth" :: v :: rest) default n := by
  rcases hn with ⟨i, hset, hlast⟩ | ⟨hnone, rfl⟩
  · refine .inl ⟨i + 2, (setsDepth_pair v rest i n).mpr hset, fun j hj => ?_⟩
    obtain ⟨j, rfl⟩ := Nat.exists_eq_add_of_le' (m := 2) (n := j) (by omega)
    exact (flagAt_pair v rest j).trans (hlast j (by omega))
  · refine .inl ⟨0, (setsDepth_pair_zero v rest n).mpr hv, fun j hj => ?_⟩
    match j with
    | 1 => exact flagAt_pair_one v rest
    | j + 2 => exact (flagAt_pair v rest j).trans (hnone j)

theorem Scanned.pair {v rest} {m : Nat} (hv : Config.WritesDepth v.toList m)
    {r : Except FlagError (List String × Config)} (hr : Scanned rest m r) (default : Nat) :
    Scanned ("--max-depth" :: v :: rest) default r := by
  cases r with
  | ok p =>
    obtain ⟨hkept, hvalid, hchosen⟩ := hr
    exact ⟨by rw [leftOver_pair, ← hkept], not_faulty_shift (faulty_pair v rest hv) hvalid,
      hchosen.pair hv default⟩
  | error e => exact FirstFault.shift (faulty_pair v rest hv) (fun _ => rfl) hr

theorem takeDepth_pair (c : Config) {n : Nat} (h : Config.WritesDepth v.toList n) :
    takeDepth c ("--max-depth" :: v :: rest) = takeDepth ⟨n⟩ rest := by
  rw [takeDepth, if_pos rfl, Config.depth?_eq_some_iff.mpr h]

theorem takeDepth_no_depth (c : Config) (h : ∀ n, ¬Config.WritesDepth v.toList n) :
    takeDepth c ("--max-depth" :: v :: rest) = .error .notADepth := by
  have hnone : Config.depth? v.toList = none :=
    Option.eq_none_iff_forall_ne_some.mpr fun n hn => h n (Config.depth?_eq_some_iff.mp hn)
  rw [takeDepth, if_pos rfl, hnone]

end Pair

/-- The arguments as the scan meets them, up to the first fault. -/
@[elab_as_elim]
theorem flags_induction {motive : List String → Prop} (nil : motive [])
    (other : ∀ arg rest, arg ≠ "--max-depth" → motive rest → motive (arg :: rest))
    (dangling : motive ["--max-depth"])
    (no_depth : ∀ v rest, (∀ n, ¬Config.WritesDepth v.toList n) →
      motive ("--max-depth" :: v :: rest))
    (pair : ∀ v n rest, Config.WritesDepth v.toList n → motive rest →
      motive ("--max-depth" :: v :: rest)) : ∀ args, motive args
  | [] => nil
  | [arg] => if h : arg = "--max-depth" then h ▸ dangling else other arg [] h nil
  | arg :: v :: rest => by
    by_cases h : arg = "--max-depth"
    · subst h
      by_cases hv : ∃ n, Config.WritesDepth v.toList n
      · obtain ⟨n, hn⟩ := hv
        exact pair v n rest hn (flags_induction nil other dangling no_depth pair rest)
      · exact no_depth v rest (not_exists.mp hv)
    · exact other arg _ h (flags_induction nil other dangling no_depth pair (v :: rest))

theorem takeDepth_dangling (c : Config) : takeDepth c ["--max-depth"] = .error .noValue := by
  rw [takeDepth, if_pos rfl]

/-- The flags taken out of the arguments where they stand. When a flag and its value are removed, what
follows them has moved to the same place; any other argument is passed over. -/
def takeDepthAt (c : Config) (args : List String) (i : Nat) :
    Except FlagError (List String × Config) :=
  if h : i < args.length then
    if args[i]? = some "--max-depth" then
      match args[i + 1]? with
      | none => .error .noValue
      | some value =>
        match Config.depth? value.toList with
        | some n => takeDepthAt { c with maxDepth := n } ((args.eraseIdx (i + 1)).eraseIdx i) i
        | none => .error .notADepth
    else takeDepthAt c args (i + 1)
  else .ok (args, c)
termination_by args.length - i
decreasing_by
  · simp only [List.length_eraseIdx]
    repeat' split
    all_goals omega
  · omega

/-- The loop has passed over the arguments before its place. -/
theorem takeDepthAt_append (c : Config) (passed rest : List String) :
    takeDepthAt c (passed ++ rest) passed.length =
      (takeDepth c rest).map fun (args, c) => (passed ++ args, c) := by
  induction rest using flags_induction generalizing c passed with
  | nil =>
    rw [takeDepthAt, dif_neg (by simp), takeDepth]
    rfl
  | other arg rest h ih =>
    have hnext := ih c (passed ++ [arg])
    rw [List.append_assoc, List.length_append] at hnext
    rw [takeDepthAt, dif_pos (by simp), if_neg (by simpa using h)]
    refine hnext.trans ?_
    rw [takeDepth_other h]
    cases takeDepth c rest <;> simp [Except.map, Functor.map]
  | dangling =>
    rw [takeDepthAt, dif_pos (by simp), if_pos (by simp), takeDepth_dangling]
    have hnone : (passed ++ ["--max-depth"])[passed.length + 1]? = none := by simp
    rw [hnone]
    rfl
  | no_depth v rest hv =>
    have hnone : Config.depth? v.toList = none :=
      Option.eq_none_iff_forall_ne_some.mpr fun n hn => hv n (Config.depth?_eq_some_iff.mp hn)
    have hvalue : (passed ++ "--max-depth" :: v :: rest)[passed.length + 1]? = some v := by simp
    rw [takeDepthAt, dif_pos (by simp), if_pos (by simp), takeDepth_no_depth v rest c hv, hvalue]
    dsimp only
    rw [hnone]
    rfl
  | pair v n rest hv ih =>
    have hvalue : (passed ++ "--max-depth" :: v :: rest)[passed.length + 1]? = some v := by simp
    have hremoved : ((passed ++ "--max-depth" :: v :: rest).eraseIdx (passed.length + 1)).eraseIdx
        passed.length = passed ++ rest := by
      simp [List.eraseIdx_append_of_length_le]
    rw [takeDepthAt, dif_pos (by simp), if_pos (by simp), takeDepth_pair v rest c hv, hvalue]
    dsimp only
    rw [Config.depth?_eq_some_iff.mpr hv, hremoved]
    exact ih ⟨n⟩ passed

/-- The recursion over the arguments gives what a loop over their places gives. -/
theorem takeDepth_eq_takeDepthAt (c : Config) (args : List String) :
    takeDepth c args = takeDepthAt c args 0 := by
  refine Eq.trans ?_ (takeDepthAt_append c [] args).symm
  cases takeDepth c args <;> rfl

/-- When the scan fails, the first faulty flag is the reason; when it succeeds no flag is at fault,
and the last one has set the depth. -/
theorem scanned_takeDepth (c : Config) (args : List String) :
    Scanned args c.maxDepth (takeDepth c args) := by
  induction args using flags_induction generalizing c with
  | nil =>
    have hnone : ∀ i, flagAt [] i = false := by simp [flagAt]
    exact ⟨rfl, by simp [Faulty, hnone], .inr ⟨hnone, rfl⟩⟩
  | other arg rest h ih =>
    rw [takeDepth_other h]
    exact (ih c).other h
  | dangling =>
    rw [takeDepth_dangling]
    exact ⟨0, ⟨flagAt_zero [], by simp⟩, by simp, rfl⟩
  | no_depth v rest hv =>
    rw [takeDepth_no_depth v rest c hv]
    exact ⟨0, (faulty_pair_zero v rest).mpr hv, by simp, by simp⟩
  | pair v n rest hv ih =>
    rw [takeDepth_pair v rest c hv]
    exact (ih ⟨n⟩).pair hv c.maxDepth

theorem takeDepth_error_iff (c : Config) (args : List String) :
    (∃ e, takeDepth c args = .error e) ↔ ∃ i, Faulty args i := by
  have hscanned := scanned_takeDepth c args
  constructor
  · rintro ⟨e, he⟩
    rw [he] at hscanned
    obtain ⟨i, hi, -⟩ := hscanned
    exact ⟨i, hi⟩
  · rintro ⟨i, hi⟩
    cases h : takeDepth c args with
    | error e => exact ⟨e, rfl⟩
    | ok p =>
      rw [h] at hscanned
      exact absurd hi (hscanned.2.1 i)

theorem takeDepth_of_valid (c : Config) {args : List String} (h : ∀ i, ¬Faulty args i) :
    ∃ d, takeDepth c args = .ok (leftOver args, d) ∧ Chosen args c.maxDepth d.maxDepth := by
  have hscanned := scanned_takeDepth c args
  cases hr : takeDepth c args with
  | error e =>
    obtain ⟨i, hi⟩ := (takeDepth_error_iff c args).mp ⟨e, hr⟩
    exact absurd hi (h i)
  | ok p =>
    obtain ⟨kept, d⟩ := p
    rw [hr] at hscanned
    obtain ⟨rfl, -, hchosen⟩ := hscanned
    exact ⟨d, rfl, hchosen⟩

/-- What the arguments up to a place are follows from these arguments. -/
theorem valueAt_append (before after : List String) {i : Nat} (h : i ≤ before.length) :
    valueAt (before ++ after) i = valueAt before i := by
  induction i with
  | zero => rfl
  | succ i ih =>
    rw [valueAt, valueAt, ih (by omega), List.getElem?_append_left (by omega)]

/-- A flag that is the last argument takes the first one appended. -/
theorem faulty_of_dangling {before : List String} (h : valueAt before before.length = true)
    (after : List String)
    (no_depth : ∀ v, after.head? = some v → ∀ n, ¬Config.WritesDepth v.toList n) :
    ∃ i, Faulty (before ++ after) i := by
  cases hlength : before.length with
  | zero =>
    rw [hlength] at h
    cases h
  | succ i =>
    have hflag : flagAt (before ++ after) i = true := by
      rw [← valueAt_succ, ← hlength, valueAt_append _ _ le_rfl, h]
    refine ⟨i, hflag, fun v hv => no_depth v ?_⟩
    rwa [← hlength, List.getElem?_append_right le_rfl, Nat.sub_self, ← List.head?_eq_getElem?]
      at hv

theorem not_writesDepth_flag (n : Nat) : ¬Config.WritesDepth "--max-depth".toList n := by
  have hnone : Config.depth? "--max-depth".toList = none := by decide
  intro h
  cases hnone.symm.trans (Config.depth?_eq_some_iff.mpr h)

theorem takeDepth_map_fst_other {arg : String} (h : arg ≠ "--max-depth") (rest : List String)
    (c : Config) : (takeDepth c (arg :: rest)).map Prod.fst =
      ((takeDepth c rest).map Prod.fst).map (arg :: ·) := by
  rw [takeDepth_other h]
  cases takeDepth c rest <;> rfl

theorem toOption_map {α β : Type} (r : Except FlagError α) (f : α → β) :
    (r.map f).toOption = r.toOption.map f := by
  cases r <;> rfl

/-- The settings that are there do not matter to what is left over, or to a failure. -/
theorem takeDepth_map_fst (c d : Config) (args : List String) :
    (takeDepth c args).map Prod.fst = (takeDepth d args).map Prod.fst := by
  induction args using flags_induction generalizing c d with
  | nil => rfl
  | other arg rest h ih => rw [takeDepth_map_fst_other h, takeDepth_map_fst_other h, ih c d]
  | dangling => rw [takeDepth_dangling, takeDepth_dangling]
  | no_depth v rest hv => rw [takeDepth_no_depth v rest c hv, takeDepth_no_depth v rest d hv]
  | pair v n rest hv => rw [takeDepth_pair v rest c hv, takeDepth_pair v rest d hv]

/-- One more pair with a depth changes neither what is left over nor a failure, where the argument
before it is no flag that waits for its value. -/
theorem takeDepth_insert {v : String} {n : Nat} (hv : Config.WritesDepth v.toList n)
    {before : List String} (after : List String)
    (place : valueAt (before ++ after) before.length = false) (c d : Config) :
    (takeDepth c (before ++ "--max-depth" :: v :: after)).map Prod.fst =
      (takeDepth d (before ++ after)).map Prod.fst := by
  induction before using flags_induction generalizing c d with
  | nil =>
    rw [List.nil_append, List.nil_append, takeDepth_pair v after c hv]
    exact takeDepth_map_fst _ _ _
  | other arg rest h ih =>
    rw [List.cons_append, List.length_cons, valueAt_other h] at place
    rw [List.cons_append, List.cons_append, takeDepth_map_fst_other h, takeDepth_map_fst_other h,
      ih place c d]
  | dangling => cases place.symm.trans (flagAt_zero after)
  | no_depth w rest hw =>
    exact (congrArg _ (takeDepth_no_depth w _ c hw)).trans
      (congrArg _ (takeDepth_no_depth w _ d hw).symm)
  | pair w m rest hw ih =>
    have hplace := (valueAt_pair w (rest ++ after) rest.length).symm.trans place
    rw [List.cons_append, List.cons_append, List.cons_append, List.cons_append,
      takeDepth_pair w _ c hw, takeDepth_pair w _ d hw, ih hplace ⟨m⟩ ⟨m⟩]

/-- A flag at the end that has no value fails, with one more pair after it as well. -/
theorem takeDepth_insert_end {before : List String} (h : valueAt before before.length = true)
    (v : String) (c d : Config) :
    (takeDepth c (before ++ ["--max-depth", v])).toOption = none ∧
      (takeDepth d before).toOption = none := by
  have hmore := faulty_of_dangling h ["--max-depth", v] fun w hw => by
    cases hw
    exact not_writesDepth_flag
  have hbare := faulty_of_dangling h [] (by simp)
  rw [List.append_nil] at hbare
  obtain ⟨e, he⟩ := (takeDepth_error_iff c _).mpr hmore
  obtain ⟨e', he'⟩ := (takeDepth_error_iff d _).mpr hbare
  rw [he, he']
  exact ⟨rfl, rfl⟩

/-- The depth flags are taken out as a scan from left to right finds them. That fails exactly when a
flag has no value or one that is no depth. Otherwise the arguments that are no flag and no value are
left, in their order, and the depth is that of the last flag, or without one that of the
environment. So one more pair with a depth leaves the same arguments, at any place that does not
divide another pair. -/
theorem takeDepth_scans (args : List String) (env : Option String) :
    ((∃ e, takeDepth (.ofEnvironment env) args = .error e) ↔ ∃ i, Faulty args i) ∧
      ((∀ i, ¬Faulty args i) → ∃ c,
        takeDepth (.ofEnvironment env) args = .ok (leftOver args, c) ∧
          "--max-depth" ∉ leftOver args ∧ (leftOver args).Sublist args ∧
          ((∃ i, SetsDepth args i c.maxDepth ∧ ∀ j, i < j → flagAt args j = false) ∨
            (∀ i, flagAt args i = false) ∧ Config.AskedFor env c.maxDepth)) ∧
      ∀ before after v n, args = before ++ after → Config.WritesDepth v.toList n →
        (valueAt args before.length = true → after = []) →
        (takeDepth (.ofEnvironment env)
            (before ++ "--max-depth" :: v :: after)).toOption.map Prod.fst =
          (takeDepth (.ofEnvironment env) args).toOption.map Prod.fst := by
  refine ⟨takeDepth_error_iff _ args, fun hvalid => ?_, ?_⟩
  · obtain ⟨c, hc, hchosen⟩ := takeDepth_of_valid (.ofEnvironment env) hvalid
    refine ⟨c, hc, not_mem_leftOver args, sublist_leftOver args, hchosen.imp_right ?_⟩
    rintro ⟨hnone, hdepth⟩
    exact ⟨hnone, hdepth ▸ Config.askedFor_ofEnvironment env⟩
  · rintro before after v n rfl hv place
    cases hvalue : valueAt (before ++ after) before.length with
    | false =>
      rw [← toOption_map, takeDepth_insert hv after hvalue, toOption_map]
    | true =>
      cases place hvalue
      rw [List.append_nil] at hvalue ⊢
      obtain ⟨hmore, hbare⟩ := takeDepth_insert_end hvalue v (.ofEnvironment env)
        (.ofEnvironment env)
      rw [hmore, hbare]

/-- Two flags, one more pair between them, and a flag that is taken as the value of another. -/
theorem takeDepth_scans_of_pairs :
    let args := ["show", "--max-depth", "3", "-", "--max-depth", "+5"]
    (∃ i, SetsDepth args i 5 ∧ ∀ j, i < j → flagAt args j = false) ∧
      leftOver args = ["show", "-"] ∧
      (takeDepth (.ofEnvironment (some "9")) ["show", "--max-depth", "3", "--max-depth", "0", "-",
        "--max-depth", "+5"]).toOption.map Prod.fst = some ["show", "-"] ∧
      ∃ i, Faulty ["keys", "--max-depth", "--max-depth", "5"] i := by
  intro args
  have hscan : takeDepth (.ofEnvironment (some "9")) args = .ok (["show", "-"], ⟨5⟩) := by decide
  obtain ⟨hfails, hleft, hinsert⟩ := takeDepth_scans args (some "9")
  have hvalid : ∀ i, ¬Faulty args i := by
    intro i hi
    obtain ⟨e, he⟩ := hfails.mpr ⟨i, hi⟩
    cases hscan.symm.trans he
  have hmore := hinsert ["show", "--max-depth", "3"] ["-", "--max-depth", "+5"] "0" 0 rfl
    (by decide) (by decide)
  obtain ⟨c, hc, -, -, hdepth⟩ := hleft hvalid
  cases hscan.symm.trans hc
  refine ⟨hdepth.resolve_right ?_, rfl, hmore.trans (by rw [hscan]; rfl),
    (takeDepth_scans _ none).1.mp ⟨.notADepth, by decide⟩⟩
  rintro ⟨hnone, -⟩
  exact absurd (hnone 1) (by decide)

end ScriptTable.CommandLine
