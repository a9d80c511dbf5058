import Skein.Proofs.Derivation.Lowering
import Skein.Proofs.Derivation.Scopes
import Skein.Proofs.Simulation.Bindings

/-!
# Names in scope are bound in the code

While a body is compiled, the scope lists the names that the code binds around the place that is
being filled.  A handler may rely on all of these names, and it is told of every name that the
body binds around the call.  A reference to one of them may be evaluated later than it stands in
the body: it still finds the binding that it would have found at once.
-/

namespace Skein.Coroutine

/-- A name that is bound around a place has the same value wherever it is evaluated inside of
bindings of other names, whatever the dynamic and the global bindings are then. -/
theorem lookup_inside {x : Symbol} {outer env inner : Env} (hx : x ∈ env.map (·.1))
    (hinner : x ∉ inner.map (·.1)) :
  ∃ v, Run.lookup (env ++ outer) x = pure v ∧ Run.lookup (inner ++ (env ++ outer)) x = return v
  := by
  have hsome : (List.lookup x (env ++ outer)).isSome = true := isSome_lookup_append (.inl hx)
  obtain ⟨v, hv⟩ := Option.isSome_iff_exists.1 hsome
  have hinside := lookup_append_of_not_mem hinner (env ++ outer)
  unfold Run.lookup
  rw [hinside, hv]
  exact ⟨v, rfl, rfl⟩

/-- Scopes are right.  Whenever a handler is asked for the code of a call of the body, the code
that it makes stands where all names of its site are bound, and the site has all names that the
body binds around the call.  Whenever a value is left to be evaluated later, it is a literal or a
name that is bound where the value would be evaluated in its turn, and when all names of the body
are in the table it has the same value where it is used. -/
theorem scopes_bound_in_code {table : Table} {body code : Expr} {t t' : SymbolTable}
    (h : compile table body t = .ok code t') :
  ∃ ms ns, Compiles table body code ms ns ∧ ∀ m ∈ ms, m.source.LiesIn m.origin body ∧
    (∀ handler site args, m.act = .ask handler site args →
      (∃ f es, m.source = .call f es ∧ calledHandler? table f = some (site.op, handler)) ∧
        handler site args = .ok m.code ∧ m.code.LiesIn m.around code ∧
        (∀ x ∈ site.bound, x ∈ m.around) ∧ ∀ x ∈ m.origin, x ∈ site.bound) ∧
    ∀ s value used, m.act = .keep s value used →
      isFixed s value = true ∧ m.code.LiesIn m.around code ∧
        (∀ x ∈ s.bound, x ∈ m.around) ∧ (∀ x ∈ m.origin, x ∈ s.bound) ∧
        ∃ added, used.LiesIn added m.code ∧ (body.Over (· ∈ t.names) →
          ∀ x, value = .var x → ∀ outer env inner : Env,
            env.map (·.1) = m.around → inner.map (·.1) = added →
              ∃ v, Run.lookup (env ++ outer) x = pure v ∧
                Run.lookup (inner ++ (env ++ outer)) x = pure v)
  := by
  obtain ⟨ns, hns, ms, hms⟩ := compile_compiles table body t code t' h
  have hsound := hms.sound (N := (· ∉ t.names)) hns.new hns.nodup
  have hplaces : MarksIn (· ≠ .copy) ms code := hms.marksIn fun hcopy => absurd rfl hcopy
  refine ⟨ms, ns, hms, fun m hm => ?_⟩
  obtain ⟨hsource, -, hact⟩ := hsound m hm
  rw [List.append_nil] at hact
  refine ⟨hsource, fun handler site args hask => ?_, fun s value used hkeep => ?_⟩
  · have hplace := hplaces m hm (by rw [hask]; nofun)
    rw [hask] at hact
    obtain ⟨hcall, hmade, hbound, horigin⟩ := hact
    exact ⟨hcall, hmade, hplace, hbound, horigin⟩
  · have hplace := hplaces m hm (by rw [hkeep]; nofun)
    rw [hkeep] at hact
    obtain ⟨hfixed, hbound, horigin, added, hadded, hapart⟩ := hact
    refine ⟨hfixed, hplace, hbound, horigin, added, hadded, ?_⟩
    rintro hover x rfl outer env inner henv hinner
    have hx : x ∈ s.bound := List.contains_iff_mem.1 hfixed
    apply lookup_inside
    · rw [henv]
      exact hbound x hx
    · rw [hinner]
      exact fun hmem => hapart (fun y hy hnew => hnew (hover y hy)) x hmem hx

/-- A body in which a name is kept while a later argument suspends. -/
def askingTwice : Expr :=
  .bind [("x", .literal (.scalar (.int 1)))]
    (.call (.var "await") [.var "op", .var "x", .call (.var "await") [.var "op"]])

/-- The scopes are right where `await` is called with the value of another call of it. -/
theorem askingTwice_scopes_bound_in_code :
  ∃ code t', compile Table.default askingTwice (SymbolTable.empty.insertAll ["await", "op", "x"]) =
      .ok code t' ∧
    ∃ ms ns, Compiles Table.default askingTwice code ms ns ∧ ∀ m ∈ ms,
      m.source.LiesIn m.origin askingTwice ∧
      (∀ handler site args, m.act = .ask handler site args →
        m.code.LiesIn m.around code ∧ (∀ x ∈ site.bound, x ∈ m.around) ∧
          ∀ x ∈ m.origin, x ∈ site.bound) ∧
      ∀ s value used, m.act = .keep s value used →
        ∃ added, used.LiesIn added m.code ∧
          ∀ x, value = .var x → ∀ outer env inner : Env,
            env.map (·.1) = m.around → inner.map (·.1) = added →
              ∃ v, Run.lookup (env ++ outer) x = pure v ∧
                Run.lookup (inner ++ (env ++ outer)) x = pure v
  := by
  have hcompiles : ((compile Table.default askingTwice).run'
      (SymbolTable.empty.insertAll ["await", "op", "x"])).isSome = true := by decide +kernel
  have hover : askingTwice.Over
      (· ∈ (SymbolTable.empty.insertAll ["await", "op", "x"]).names) := by decide +kernel
  obtain ⟨code, t', hcode⟩ := Compiling.exists_eq_ok hcompiles
  obtain ⟨ms, ns, hms, hmarks⟩ := scopes_bound_in_code hcode
  refine ⟨code, t', hcode, ms, ns, hms, fun m hm => ?_⟩
  obtain ⟨hsource, hask, hkeep⟩ := hmarks m hm
  refine ⟨hsource, fun handler site args hact => ?_, fun s value used hact => ?_⟩
  · obtain ⟨-, -, hplace⟩ := hask handler site args hact
    exact hplace
  · obtain ⟨-, -, -, -, added, hadded, hsame⟩ := hkeep s value used hact
    exact ⟨added, hadded, hsame hover⟩

end Skein.Coroutine
