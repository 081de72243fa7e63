/-
Keys and the files they lead to.

A file is not compiled twice because its key is recorded, and a key is made without asking
where it leads.  Whether two keys can lead to one file is a matter of walking: from one
directory each key goes back by its lead and down by its names, and going down keeps all
names.  Keys that climb equally often therefore lead to different places, and so do all keys
if the directory has no name to be taken back and no root to stop at.  A key that climbs out
of the directory and comes back by the directory's own names is read there as well.
-/
import Schemata.Proofs.Loading.Closure
import Schemata.Proofs.Path.Lead
import Schemata.Proofs.Resolver.Directories

namespace Schemata

open Loading Descriptor

namespace Resolver

variable {dir : Path} {a b : String}

/-- From a directory that only climbs a key goes on component by component. -/
theorem walk_of_onlyClimbs (hdir : dir.OnlyClimbs) (path : String) :
    (Path.walk dir.normalComponents.reverse (segments (importKey path))).reverse =
      dir.normalComponents ++ Path.normalComponents ⟨importKey path⟩ := by
  have hroot := root_notMem_keySegments path
  rw [← normalComponents_importKey] at hroot
  have hnormal : IsNormal
      (dir.normalComponents.reverse.reverse ++ Path.normalComponents ⟨importKey path⟩) := by
    rw [List.reverse_reverse]
    exact .append_of_climbs hdir (Path.isNormal_normalComponents _) hroot
  rw [walk_importKey, hnormal.foldl_pushNormal, List.reverse_append, List.reverse_reverse,
    List.reverse_reverse]

/-- **Different keys lead from a directory to different places**, if they climb equally often or
the directory only climbs. -/
theorem importKey_inj_of_target
    (halike : dir.OnlyClimbs ∨ Path.lead ⟨importKey a⟩ = Path.lead ⟨importKey b⟩)
    (h : (dir.normalize.join ⟨importKey a⟩).normalize.components =
      (dir.normalize.join ⟨importKey b⟩).normalize.components) : importKey a = importKey b := by
  rw [components_target dir (isAbsolute_importKey a),
    components_target dir (isAbsolute_importKey b)] at h
  rcases halike with hdir | hlead
  · rw [walk_of_onlyClimbs hdir, walk_of_onlyClimbs hdir, List.append_cancel_left_eq] at h
    exact importKey_inj h
  · exact importKey_inj_of_walk hlead (List.reverse_inj.mp h)

/-- A candidate is at the place its key leads to. -/
theorem Candidate.normalComponents {p : Path} {key : String} (h : Candidate dir key p) :
    p.normalComponents = (dir.normalize.join ⟨key⟩).normalize.components := by
  rw [h.target, Path.normalComponents_normalize, ← Path.components_normalize]

end Resolver

open Resolver

/-- The file is what its name leads to from the directory, compiled under that name. -/
structure ReadFrom (t : Table) (dir : Path) (nesting : Nesting) (f : File) (p : Path) : Prop where
  located : locate? t.source [dir] f.name = some p
  compiled : ∃ bytes schema, t.read p = .ok bytes ∧
    compileBytes f.name bytes nesting = .ok ⟨schema, f⟩

section

variable {t : Table} {dir : Path} {nesting : Nesting} {name : String} {bytes : ByteArray}
  {set : DescriptorSet} {f : File}

/-- Every file of the set but the root is read from where its name leads. -/
theorem exists_readFrom
    (h : (compile (.ofDirectories t.source [dir]) nesting name bytes).result = .ok set)
    (hf : f ∈ set.files) (hroot : f.name ≠ name) :
    ∃ path p, f.name = importKey path ∧ ReadFrom t dir nesting f p := by
  obtain ⟨path, content, schema, hname, hresolve, hcompile⟩ := compile_resolved h hf hroot
  cases hlocate : locate? t.source [dir] f.name with
  | none =>
      rw [resolve_of_not_located t.source hlocate] at hresolve
      cases hresolve
  | some p =>
      rw [resolve_of_located t.source hlocate] at hresolve
      exact ⟨path, p, hname, hlocate, content, schema, hresolve, hcompile⟩

/-- What a key locates in the only directory is a candidate there. -/
theorem candidate_of_locate? {path : String} {p : Path}
    (h : locate? t.source [dir] (importKey path) = some p) : Candidate dir (importKey path) p := by
  obtain ⟨before, d, after, hdirs, hcandidate, -⟩ :=
    exists_of_locate?_eq_some (isAbsolute_importKey path) h
  have hd : d ∈ [dir] := by simp [hdirs]
  exact List.mem_singleton.mp hd ▸ hcandidate

end

/-- **No file of a table is compiled under two names that climb equally often.**  If a file compiles
with its imports from one directory, any two other files of the set are compiled from different
files of the table; their names may climb as they like if the directory's normal form is empty
or nothing but `..`. -/
theorem compile_reads_apart (t : Table) (dir : Path) {nesting : Nesting} {name : String}
    {bytes : ByteArray} {set : DescriptorSet}
    (h : (compile (.ofDirectories t.source [dir]) nesting name bytes).result = .ok set)
    {f g : File} (hf : f ∈ set.files) (hg : g ∈ set.files) (hfroot : f.name ≠ name)
    (hgroot : g.name ≠ name) (hne : f.name ≠ g.name)
    (halike : dir.OnlyClimbs ∨ Path.lead ⟨f.name⟩ = Path.lead ⟨g.name⟩) :
    ∃ p q, ReadFrom t dir nesting f p ∧ ReadFrom t dir nesting g q ∧
      p.normalComponents ≠ q.normalComponents := by
  obtain ⟨a, p, hfname, hp⟩ := exists_readFrom h hf hfroot
  obtain ⟨b, q, hgname, hq⟩ := exists_readFrom h hg hgroot
  refine ⟨p, q, hp, hq, fun hplace => hne ?_⟩
  have hcandidate := candidate_of_locate? (hfname ▸ hp.located)
  have hcandidate' := candidate_of_locate? (hgname ▸ hq.located)
  rw [hcandidate.normalComponents, hcandidate'.normalComponents] at hplace
  rw [hfname, hgname] at halike ⊢
  exact importKey_inj_of_target halike hplace

/-- A directory with two files. -/
def pair : Table := .ofList [(⟨"t/a"⟩, importsOf []), (⟨"t/b"⟩, importsOf ["x/../a"])]

/-- Two files of the directory are read apart. -/
theorem pair_reads_apart :
    let set : DescriptorSet := ⟨[importing "a" [], importing "b" ["x/../a"], importing "m" ["./b"]]⟩
    (compile (.ofDirectories pair.source [⟨"t"⟩]) .nested "m" (importsOf ["./b"])).result =
      .ok set ∧
    ∃ p q, ReadFrom pair ⟨"t"⟩ .nested (importing "a" []) p ∧
      ReadFrom pair ⟨"t"⟩ .nested (importing "b" ["x/../a"]) q ∧
      p.normalComponents ≠ q.normalComponents := by
  intro set
  have hset : (compile (.ofDirectories pair.source [⟨"t"⟩]) .nested "m"
      (importsOf ["./b"])).result = .ok set := Fallible.toOption_eq_some.mp (by decide +kernel)
  exact ⟨hset, compile_reads_apart pair ⟨"t"⟩ hset (by decide) (by decide) (by decide) (by decide)
    (by decide) (.inr (by decide +kernel))⟩

/-- A file of the directory is compiled under two names, one of which leaves the directory and
comes back. -/
theorem pair_compiled_twice :
    (compile (.ofDirectories pair.source [⟨"t"⟩]) .nested "m" (importsOf ["a", "../t/a"])).result =
      .ok ⟨[importing "a" [], importing "../t/a" [], importing "m" ["a", "../t/a"]]⟩ ∧
    Resolver.locate? pair.source [⟨"t"⟩] "a" = some ⟨"t/a"⟩ ∧
    Resolver.locate? pair.source [⟨"t"⟩] "../t/a" = some ⟨"t/a"⟩ :=
  ⟨Fallible.toOption_eq_some.mp (by decide +kernel), by decide +kernel, by decide +kernel⟩

end Schemata
