import TreeShell.Manifest.Reader
import TreeShell.Proofs.Command.Written
import TreeShell.Proofs.Tree.PathMap
import TreeShell.Proofs.Command.Alike
import TreeShell.Proofs.Manifest.Bootstrap
import TreeShell.Terminal
import TreeShell.Command.Syntax
import TreeShell.Proofs.Command.Syntax
import TreeShell.Proofs.Command.Blank
import TreeShell.Proofs.Command.Effects
import TreeShell.Proofs.Path.Names
import TreeShell.Proofs.Command.PrintedPaths
import TreeShell.Proofs.Command.Listings
import TreeShell.Proofs.Command.Frame
import TreeShell.Proofs.Token.Spans
import TreeShell.Proofs.Command.Redirects
import TreeShell.Proofs.Terminal.Errors
import TreeShell.Proofs.Terminal.Keys
import TreeShell.Proofs.Terminal.Ring
import TreeShell.Proofs.Completion.Again
import TreeShell.Proofs.Completion.Typed
import TreeShell.Proofs.Session.Resolving
import TreeShell.Proofs.Session.Lookups
import TreeShell.Proofs.Session.Directories
import TreeShell.Proofs.Session.Downloads
import TreeShell.Proofs.Session.Removing
import TreeShell.Proofs.Session.Relative
import TreeShell.Proofs.Command.Operations
import TreeShell.Proofs.Command.Operands
import TreeShell.Proofs.Session.Origins
import TreeShell.Proofs.Command.Origins
import TreeShell.Proofs.Tree.Walking
import TreeShell.Proofs.Path.Joined
import TreeShell.Proofs.Command.Options
import TreeShell.Proofs.Token.Separators
