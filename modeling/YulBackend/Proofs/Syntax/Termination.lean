import YulBackend.Proofs.Syntax.OrderedChoice

namespace YulBackend.Grammar

variable {c c' : Cursor} {pairs : List Pair}

theorem Cursor.length_skip_le (c : Cursor) : c.skip.chars.length ≤ c.chars.length := by
  have hsplit := congrArg List.length (Lexer.split_gap c.chars)
  rw [List.length_append] at hsplit
  rw [Cursor.skip_eq]
  exact hsplit ▸ Nat.le_add_left _ _

/-- A token that `Terminal.run` matches has at least one character. -/
theorem Terminal.length_lt_of_run {t : Terminal} (h : t.run c = some (c', pairs)) :
    c'.chars.length < c.chars.length := by
  obtain ⟨⟨text, rest⟩, hcut, heq⟩ := Option.map_eq_some_iff.1 h
  obtain ⟨raw, hcuts, rfl, hchars⟩ := cut?_pattern.1 hcut
  cases heq
  have hlength := Lexer.length_lt_of_next? hcuts.next?.2
  rwa [← hchars] at hlength

mutual

/-- A match that `Runs` finds never goes back in the text. -/
theorem Runs.length_le : ∀ {f : Form} {c c' : Cursor} {pairs : List Pair}, Runs f c c' pairs →
    c'.chars.length ≤ c.chars.length
  | _, _, _, _, .terminal h => (Terminal.length_lt_of_run h).le
  | _, _, _, _, .rule h => h.length_le
  | _, _, _, _, .sequence h h' => h'.length_le.trans ((Cursor.length_skip_le _).trans h.length_le)
  | _, _, _, _, .left h => h.length_le
  | _, _, _, _, .right _ h => h.length_le
  | _, _, _, _, .present h => h.length_le
  | _, _, _, _, .absent _ => le_rfl
  | _, _, _, _, .none _ => le_rfl
  | _, _, _, _, .some h hon => hon.length_le.trans h.length_le

theorem RunsOn.length_le : ∀ {body : Form} {c c' : Cursor} {pairs : List Pair}, RunsOn body c c' pairs →
    c'.chars.length ≤ c.chars.length
  | _, _, _, _, .stop _ => le_rfl
  | _, _, _, _, .further h hon => hon.length_le.trans (h.length_le.trans (Cursor.length_skip_le _))

end

/-- A form that cannot be empty gets on in the text whenever `Runs` holds of it. -/
theorem Runs.length_lt : ∀ {f : Form} {c c' : Cursor} {pairs : List Pair}, Runs f c c' pairs →
    f.mayBeEmpty = false → c'.chars.length < c.chars.length
  | _, _, _, _, .terminal h, _ => Terminal.length_lt_of_run h
  | _, _, _, _, .rule h, hf => h.length_lt ((Rule.mayBeEmpty_body _).trans hf)
  | _, _, _, _, .sequence h h', hf => by
    rcases Bool.and_eq_false_iff.1 hf with hfirst | hsecond
    · exact (h'.length_le.trans (Cursor.length_skip_le _)).trans_lt (h.length_lt hfirst)
    · exact (h'.length_lt hsecond).trans_le ((Cursor.length_skip_le _).trans h.length_le)
  | _, _, _, _, .left h, hf => h.length_lt (Bool.or_eq_false_iff.1 hf).1
  | _, _, _, _, .right _ h, hf => h.length_lt (Bool.or_eq_false_iff.1 hf).2

/-- The rules with which a form may start. -/
def Form.heads : Form → List Rule
  | terminal _ => []
  | rule r => [r]
  | sequence first second => if first.mayBeEmpty then first.heads ++ second.heads else first.heads
  | choice first second => first.heads ++ second.heads
  | optional body | many body => body.heads

/-- How many rules may start inside a rule, one in the other. -/
def Rule.rank : Rule → Nat
  | .statement => 2
  | .expressionStatement | .expression => 1
  | _ => 0

/-- No rule starts with itself, be it through others. -/
theorem Rule.rank_lt_of_mem_heads {r s : Rule} (h : s ∈ r.body.heads) : s.rank < r.rank := by
  have hall : ∀ s ∈ r.body.heads, s.rank < r.rank := by
    cases r <;> decide
  exact hall s h

/-- At this place the form matches or fails. -/
def Decided (f : Form) (c : Cursor) : Prop := (∃ c' pairs, Runs f c c' pairs) ∨ Fails f c

/-- A repetition that is decided match by match comes to an end, since each match gets on in the text. -/
theorem exists_runsOn {n : Nat} {body : Form} (hbody : body.mayBeEmpty = false)
    (hdecided : ∀ c : Cursor, c.chars.length < n → Decided body c) (c : Cursor) (hc : c.chars.length < n) :
    ∃ c' pairs, RunsOn body c c' pairs := by
  have hskip := Cursor.length_skip_le c
  rcases hdecided c.skip (hskip.trans_lt hc) with ⟨c₁, ps, h⟩ | h
  · have hlength := (h.length_lt hbody).trans_le hskip
    obtain ⟨c₂, qs, hon⟩ := exists_runsOn hbody hdecided c₁ (hlength.trans hc)
    exact ⟨c₂, ps ++ qs, .further h hon⟩
  · exact ⟨c, [], .stop h⟩
termination_by c.chars.length

/-- A form is decided in texts of this length if the rules are that it may start with, and if all forms are in shorter
ones. -/
theorem decided_of_heads {n : Nat}
    (hshorter : ∀ {f : Form} (c : Cursor), f.isProductive → c.chars.length < n → Decided f c) {f : Form}
    (hf : f.isProductive) (hheads : ∀ r ∈ f.heads, ∀ c : Cursor, c.chars.length ≤ n → Decided (.rule r) c)
    (c : Cursor) (hc : c.chars.length ≤ n) : Decided f c := by
  induction f generalizing c with
  | terminal t =>
    cases h : t.run c with
    | none => exact .inr (.terminal h)
    | some found => exact .inl ⟨found.1, found.2, .terminal h⟩
  | rule r => exact hheads r List.mem_cons_self c hc
  | sequence first second ihFirst ihSecond =>
    obtain ⟨hf₁, hf₂⟩ := Bool.and_eq_true_iff.1 hf
    have hfirst : ∀ r ∈ first.heads, r ∈ (Form.sequence first second).heads := by
      intro r hr
      rw [Form.heads]
      split
      · exact List.mem_append_left _ hr
      · exact hr
    rcases ihFirst hf₁ (fun r hr => hheads r (hfirst r hr)) c hc with ⟨c₁, ps, h⟩ | h
    · have hsecond : Decided second c₁.skip := by
        -- Only a first part that may be empty leaves as much text to the second as there was.
        have hskip := Cursor.length_skip_le c₁
        cases hempty : first.mayBeEmpty with
        | false => exact hshorter _ hf₂ ((hskip.trans_lt (h.length_lt hempty)).trans_le hc)
        | true =>
          refine ihSecond hf₂ (fun r hr => hheads r ?_) _ ((hskip.trans h.length_le).trans hc)
          rw [Form.heads, if_pos hempty]
          exact List.mem_append_right _ hr
      rcases hsecond with ⟨c₂, qs, h'⟩ | h'
      · exact .inl ⟨c₂, ps ++ qs, .sequence h h'⟩
      · exact .inr (.second h h')
    · exact .inr (.first h)
  | choice first second ihFirst ihSecond =>
    obtain ⟨hf₁, hf₂⟩ := Bool.and_eq_true_iff.1 hf
    rcases ihFirst hf₁ (fun r hr => hheads r (List.mem_append_left _ hr)) c hc with ⟨c', pairs, h⟩ | h
    · exact .inl ⟨c', pairs, .left h⟩
    · rcases ihSecond hf₂ (fun r hr => hheads r (List.mem_append_right _ hr)) c hc with ⟨c', pairs, h'⟩ | h'
      · exact .inl ⟨c', pairs, .right h h'⟩
      · exact .inr (.choice h h')
  | optional body ih =>
    rcases ih hf hheads c hc with ⟨c', pairs, h⟩ | h
    · exact .inl ⟨c', pairs, .present h⟩
    · exact .inl ⟨c, [], .absent h⟩
  | many body ih =>
    obtain ⟨hempty, hbody⟩ := Bool.and_eq_true_iff.1 hf
    rw [Bool.not_eq_true'] at hempty
    rcases ih hbody hheads c hc with ⟨c₁, ps, h⟩ | h
    · obtain ⟨c₂, qs, hon⟩ := exists_runsOn hempty (fun c => hshorter c hbody) c₁ ((h.length_lt hempty).trans_le hc)
      exact .inl ⟨c₂, ps ++ qs, .some h hon⟩
    · exact .inl ⟨c, [], .none h⟩

/-- Every form is decided at every place. The induction is on the length of the text, and for texts of one length on
the rank of the rules. -/
theorem decided_of_length_lt (n : Nat) : ∀ {f : Form} (c : Cursor), f.isProductive → c.chars.length < n →
    Decided f c := by
  induction n with
  | zero => exact fun _ _ hc => absurd hc (Nat.not_lt_zero _)
  | succ n ih =>
    have hrules (k : Nat) : ∀ r : Rule, r.rank < k → ∀ c : Cursor, c.chars.length ≤ n → Decided (.rule r) c := by
      induction k with
      | zero => exact fun _ hr => absurd hr (Nat.not_lt_zero _)
      | succ k ihRank =>
        intro r hr c hc
        have hheads (s : Rule) (hs : s ∈ r.body.heads) : s.rank < k :=
          (Rule.rank_lt_of_mem_heads hs).trans_le (Nat.le_of_lt_succ hr)
        rcases decided_of_heads ih r.isProductive_body (fun s hs => ihRank s (hheads s hs)) c hc with ⟨c', ps, h⟩ | h
        · exact .inl ⟨c', _, .rule h⟩
        · exact .inr (.rule h)
    intro f c hf hc
    exact decided_of_heads ih hf (fun r _ => hrules _ r (Nat.lt_succ_self _)) c (Nat.le_of_lt_succ hc)

/-- Every text comes to an outcome, so no matching goes on forever. -/
theorem exists_outcome (source : String) : ∃ outcome, Outcome source outcome := by
  rcases decided_of_length_lt _ (Cursor.ofText source).skip (f := Rule.block) rfl (Nat.lt_succ_self _) with
    ⟨c, pairs, h⟩ | h
  · by_cases hend : c.skip.chars = []
    · exact ⟨some pairs, .matched h hend⟩
    · exact ⟨none, .unfinished h hend⟩
  · exact ⟨none, .failed h⟩

end YulBackend.Grammar
