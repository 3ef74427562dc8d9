import XmlRules.Reading
import XmlRules.Settings
namespace XmlRules

structure Processor where
  rules : Registry
  factory : Factory := {}
  settings : Settings := {}

structure Outcome (σ : Type) where
  result : Except ReadError (Option Ref)
  store : Store
  journal : σ

namespace Processor

def new (settings : Settings) : Processor where
  rules := .base { placement := settings.placement }
  settings := settings

variable {σ : Type}

def dispatcher (p : Processor) (journal : σ) : Dispatcher σ :=
  .new p.rules p.factory p.settings.trims journal

def outcome (run : Except ReadError Unit × Dispatcher σ) : Outcome σ where
  result := run.1.map fun _ => run.2.root?
  store := run.2.progress.store
  journal := run.2.progress.journal

def read (p : Processor) (catalogue : Catalogue σ) (journal : σ) (document : Markup.Bytes) :
    Outcome σ :=
  outcome ((Dispatcher.read catalogue p.settings.namespaces document).perform (p.dispatcher journal))

-- With an object on the stack before the first element. It stays reachable, whatever happens.
def readWithRoot (p : Processor) (catalogue : Catalogue σ) (journal : σ) (root : Object)
    (document : Markup.Bytes) : Outcome σ :=
  outcome ((Dispatcher.read catalogue p.settings.namespaces document).perform
    ((p.dispatcher journal).setRoot root))

def givenRoot : Ref := ⟨0⟩

end Processor
end XmlRules
