import ArgoOS.Fs.Names
import ArgoOS.Memory.PmmRun
import ArgoOS.Memory.PageMap
import ArgoOS.Task.Resume
import ArgoOS.Task.ForkResume
import ArgoOS.Task.SemaphoreCount
import ArgoOS.Drivers.Keyboard
import ArgoOS.Task.Running
import ArgoOS.Memory.Realloc
import ArgoOS.Fs.Failures
import ArgoOS.Elf.Abandoned
import ArgoOS.Shell.WordCount
import ArgoOS.Shell.HeadTail
import ArgoOS.Shell.Grep
import ArgoOS.Shell.InputLine
import ArgoOS.Shell.Move
import ArgoOS.Lib.Memory
import ArgoOS.Lib.Panic
import ArgoOS.Drivers.Timer
import ArgoOS.Drivers.Graphics
