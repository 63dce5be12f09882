/-
# Which samples a prefix of the rows covers

The rows of a file are emitted sample by sample.  When every sample emits a row that will be
stored (`SamplesWrite`), a prefix of the rows that reaches into one sample holds such a row of
every sample before it, from the start index on (`covered_prefix`).

The device of a row depends on the shared flag, its value does not; so whether a sample emits
such a row can be read off the lines alone.
-/
import HpcPerfStats.DeltaChunks
import HpcPerfStats.ResumeIndex

namespace SampleCoverage

open PyText StatsParser SharedStamp CounterDeltas DeltaChunks ResumeIndex

/-! ## Samples that write -/

/-- A row whose value is a plain number. -/
def plainRow (r : Row) : Bool :=
  match r.value with
  | .fin v => v < dcgmFp64Blank
  | _ => false

/-- Some line in front of the next header emits a plain row for the sample. -/
def blockWrites (excludeTypes : List String) (tags : Tags) : SchemaTable → List String → Bool
  | _, [] => false
  | schema, line :: rest =>
      if (headerOf line).isSome then false
      else (emitted (lineRows excludeTypes schema (some tags) false line)).any plainRow
        || blockWrites excludeTypes tags (schemaAfterLine schema line) rest

/-- Every sample emits a plain row. -/
def SamplesWrite (excludeTypes : List String) : SchemaTable → List String → Prop
  | _, [] => True
  | schema, line :: rest =>
      (∀ tags ∈ headerOf line,
          blockWrites excludeTypes tags (schemaAfterLine schema line) rest = true)
        ∧ SamplesWrite excludeTypes (schemaAfterLine schema line) rest

instance SamplesWrite.decidable (excludeTypes : List String) : ∀ (schema : SchemaTable)
    (lines : List String), Decidable (SamplesWrite excludeTypes schema lines)
  | _, [] => isTrue trivial
  | schema, line :: rest =>
      letI := SamplesWrite.decidable excludeTypes (schemaAfterLine schema line) rest
      inferInstanceAs (Decidable ((∀ tags ∈ headerOf line,
        blockWrites excludeTypes tags (schemaAfterLine schema line) rest = true) ∧ _))

theorem samplesWrite_append {excludeTypes : List String} (a : List String) {b : List String} :
    ∀ {schema : SchemaTable}, SamplesWrite excludeTypes schema (a ++ b) →
      SamplesWrite excludeTypes (schemaAfter schema a) b := by
  induction a with
  | nil => intro schema h; exact h
  | cons line a ih => intro schema h; exact ih h.2

/-- The samples that are taken from a start index on. -/
def seenTags (s : ℕ) (lines : List String) : List Tags :=
  (lines.drop s).filterMap headerOf

/-- The rows hold a plain row of the sample. -/
def HasRow (rows : List Row) (t : Tags) : Prop :=
  ∃ r ∈ rows, plainRow r = true ∧ r.time = t.time ∧ r.host = t.host

theorem HasRow.mono {rows rows' : List Row} {t : Tags} (h : HasRow rows t)
    (hsub : ∀ r ∈ rows, r ∈ rows') : HasRow rows' t := by
  obtain ⟨r, hr, hplain, htime, hhost⟩ := h
  exact ⟨r, hsub r hr, hplain, htime, hhost⟩

/-- A line that emits a plain row does so under either flag. -/
theorem hasRow_of_line {p p' : Parser} {line : String} {t : Tags} (ht : p.tags = some t)
    (hp : LineEffect p p' line)
    (hany : (emitted (lineRows p.excludeTypes p.schema (some t) false line)).any plainRow = true) :
    HasRow p'.rows t := by
  obtain ⟨rows, hrows, heq⟩ := hp.rows
  rw [ht] at hrows
  obtain ⟨base, typ, dev, -, hbase⟩ :=
    (restamped_lineRows p.excludeTypes p.schema t line).exists_base
  have hbase' := hbase p.sampleShared
  simp only [hrows, emitted] at hbase'
  rw [hbase, List.any_map] at hany
  obtain ⟨r, hr, hplain⟩ := List.any_eq_true.mp hany
  have hmem : setDev (sharedRowDev dev typ t.jid p.sampleShared) r ∈ rows := by
    rw [hbase']
    exact List.mem_map_of_mem hr
  obtain ⟨t', ht', htime, hhost⟩ := tags_of_mem_lineRows hrows hmem
  obtain rfl := Option.some.inj ht'
  refine ⟨setDev (sharedRowDev dev typ t.jid p.sampleShared) r, ?_, hplain, htime, hhost⟩
  rw [heq]
  exact List.mem_append_right _ hmem

/-! ## Runs -/

theorem seenTags_concat (s : ℕ) (l : List String) (line : String) :
    seenTags s (l ++ [line])
      = seenTags s l ++ if s ≤ l.length then (headerOf line).toList else [] := by
  rw [seenTags, seenTags]
  split_ifs with hs
  · rw [List.drop_append_of_le_length hs, List.filterMap_append]
    congr 1
  · have hlen : (l ++ [line]).length ≤ s := by
      rw [List.length_append, List.length_singleton]
      omega
    rw [List.drop_eq_nil_of_le hlen, List.drop_eq_nil_of_le (by omega)]
    rfl

/-- The open sample behind one more line. -/
theorem tags_feedLine {p p' : Parser} {line : String} (h : LineEffect p p' line) :
    p'.tags = ((if p.startIdx ≤ p.lineIndex then headerOf line else none).or p.tags) := by
  have hsample : p'.tags = (p.sampleState.feed (p.startIdx ≤ p.lineIndex) line).tags :=
    congrArg SampleState.tags h.sample
  rw [hsample, SampleState.feed]
  cases hheader : headerOf line with
  | none =>
      simp only [ite_self, Option.none_or]
      split
      · rfl
      · rfl
  | some t =>
      simp only [markOf_of_header hheader, decide_eq_true_eq]
      split_ifs
      · rfl
      · rfl

/-- **Covered samples.**  Behind some lines, every sample but the open one has a plain row,
and the open one has a plain row or will emit one. -/
theorem covered_run {excludeTypes : List String} {s : ℕ} (l : List String) :
    ∀ {rest : List String} {q : Parser}, SamplesWrite excludeTypes [] (l ++ rest) →
      (Parser.init s excludeTypes).feedLines l = .ok q →
        q.tags = (seenTags s l).getLast?
          ∧ ∀ t ∈ seenTags s l, HasRow q.rows t
              ∨ (q.tags = some t ∧ blockWrites excludeTypes t q.schema rest = true) := by
  induction l using List.reverseRecOn with
  | nil =>
      intro rest q _ h
      obtain rfl := Except.ok.inj h
      rw [seenTags, List.drop_nil]
      exact ⟨rfl, by simp⟩
  | append_singleton l line ih =>
      intro rest q hwrites h
      obtain ⟨p, hp, hq⟩ := (feedLines_append l [line]).mp h
      obtain ⟨q', hq', hnil⟩ := (feedLines_cons line []).mp hq
      obtain rfl := Except.ok.inj hnil
      have heff := feedLine_effect hq'
      rw [List.append_assoc, List.singleton_append] at hwrites
      obtain ⟨htags, hcovered⟩ := ih hwrites hp
      obtain ⟨hstart, hexclude⟩ := feedLines_static l hp
      obtain ⟨hschema, hindex⟩ := feedLines_position l hp
      have hline : p.startIdx ≤ p.lineIndex ↔ s ≤ l.length := by
        rw [hstart, hindex]
        show s ≤ 0 + l.length ↔ s ≤ l.length
        omega
      have hmono : ∀ t, HasRow p.rows t → HasRow q'.rows t := by
        intro t ht
        obtain ⟨rows, -, heq⟩ := heff.rows
        exact ht.mono fun r hr => by
          rw [heq]
          exact List.mem_append_left _ hr
      have htags' := tags_feedLine heff
      rw [seenTags_concat]
      by_cases hopen : s ≤ l.length ∧ (headerOf line).isSome = true
      · -- a header that is taken: the open sample is closed
        obtain ⟨hs, hsome⟩ := hopen
        obtain ⟨t, ht⟩ := Option.isSome_iff_exists.mp hsome
        rw [if_pos (hline.mpr hs), ht, Option.some_or] at htags'
        rw [if_pos hs, ht]
        refine ⟨by rw [htags']; simp, ?_⟩
        intro t' ht'
        rcases List.mem_append.mp ht' with hold | hnew
        · left
          rcases hcovered t' hold with hrow | ⟨-, hpromise⟩
          · exact hmono t' hrow
          · rw [blockWrites, if_pos hsome] at hpromise
            cases hpromise
        · right
          obtain rfl : t' = t := by simpa using hnew
          refine ⟨htags', ?_⟩
          have hhere := (samplesWrite_append l hwrites).1 t' ht
          rw [heff.schema, hschema]
          exact hhere
      · -- the open sample stays open
        have hnone : s ≤ l.length → headerOf line = none := by
          intro hs
          by_contra hne
          exact hopen ⟨hs, Option.isSome_iff_ne_none.mpr hne⟩
        have hsame : (if s ≤ l.length then (headerOf line).toList else []) = [] := by
          split_ifs with hs
          · rw [hnone hs]
            rfl
          · rfl
        have htags'' : q'.tags = p.tags := by
          rw [htags']
          split_ifs with hs
          · rw [hnone (hline.mp hs), Option.none_or]
          · rw [Option.none_or]
        rw [hsame, List.append_nil, htags'']
        refine ⟨htags, ?_⟩
        intro t ht
        rcases hcovered t ht with hrow | ⟨hopen', hpromise⟩
        · exact Or.inl (hmono t hrow)
        · rw [blockWrites] at hpromise
          split_ifs at hpromise with hheader
          rw [Bool.or_eq_true] at hpromise
          rcases hpromise with hnow | hlater
          · left
            have hexclude' : p.excludeTypes = excludeTypes := hexclude
            rw [← hexclude'] at hnow
            exact hasRow_of_line hopen' heff hnow
          · right
            rw [heff.schema]
            exact ⟨hopen', hlater⟩

/-- **Prefixes.**  A prefix of the rows that holds a row of one sample holds a plain row of
every sample before it. -/
theorem covered_prefix {excludeTypes : List String} {s : ℕ} (l : List String) :
    ∀ {rest : List String} {q : Parser} {written : List Row} {r : Row},
      SamplesWrite excludeTypes [] (l ++ rest) →
        (Parser.init s excludeTypes).feedLines l = .ok q → written <+: q.rows → r ∈ written →
          ∃ a t, a <+: l ∧ (seenTags s a).getLast? = some t ∧ r.time = t.time ∧ r.host = t.host
            ∧ ∀ t' ∈ seenTags s a, t' = t ∨ HasRow written t' := by
  induction l using List.reverseRecOn with
  | nil =>
      intro rest q written r _ h hpre hr
      obtain rfl := Except.ok.inj h
      cases List.prefix_nil.mp hpre
      cases hr
  | append_singleton l line ih =>
      intro rest q written r hwrites h hpre hr
      obtain ⟨p, hp, hq⟩ := (feedLines_append l [line]).mp h
      obtain ⟨q', hq', hnil⟩ := (feedLines_cons line []).mp hq
      obtain rfl := Except.ok.inj hnil
      have heff := feedLine_effect hq'
      rw [List.append_assoc, List.singleton_append] at hwrites
      obtain ⟨rows, hrows, heq⟩ := heff.rows
      rw [heq] at hpre
      have hinit : l <+: l ++ [line] := List.prefix_append l [line]
      rcases List.prefix_or_prefix_of_prefix hpre (List.prefix_append p.rows rows) with
        hshort | ⟨new, rfl⟩
      · obtain ⟨a, t, ha, h⟩ := ih hwrites hp hshort hr
        exact ⟨a, t, ha.trans hinit, h⟩
      · rcases List.mem_append.mp hr with hold | hnew
        · obtain ⟨a, t, ha, hlast, htime, hhost, hall⟩ := ih hwrites hp (List.prefix_refl _) hold
          refine ⟨a, t, ha.trans hinit, hlast, htime, hhost, fun t' ht' => ?_⟩
          rcases hall t' ht' with heq' | hrow
          · exact Or.inl heq'
          · exact Or.inr (hrow.mono fun r' hr' => List.mem_append_left _ hr')
        · -- the row is emitted by this line, for the open sample
          have hmem : r ∈ rows := ((List.prefix_append_right_inj _).mp hpre).subset hnew
          obtain ⟨t, ht, htime, hhost⟩ := tags_of_mem_lineRows hrows hmem
          obtain ⟨htags, hcovered⟩ := covered_run l hwrites hp
          refine ⟨l, t, hinit, by rw [← htags, ht], htime, hhost, fun t' ht' => ?_⟩
          rcases hcovered t' ht' with hrow | ⟨hopen, -⟩
          · exact Or.inr (hrow.mono fun r' hr' => List.mem_append_left _ hr')
          · left
            rw [ht] at hopen
            exact (Option.some.inj hopen).symm

end SampleCoverage
