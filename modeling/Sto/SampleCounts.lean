import Sto.SerialIngest
import Sto.Profiles

namespace Sto

open Library

variable {env : Externals} {pg : Postgres} {s : System Upload Db SqlError} {us : List Upload}
  {u : Upload}

def Upload.EverySampleResolves (env : Externals) (u : Upload) : Prop :=
  ∀ symlist ∈ u.symlists, resolvedPath env symlist ≠ []

theorem Upload.EverySampleResolves.resolves (h : u.EverySampleResolves env)
    (hne : u.symlists ≠ []) : u.Resolves env := by
  obtain ⟨symlist, hmem⟩ := List.exists_mem_of_ne_nil _ hne
  exact ⟨_, List.mem_map_of_mem hmem, h symlist hmem⟩

end Sto
